import IdentifyBench.Sink

/-! A memory with little room. It takes the beginning of what is sent to it, the same in whatever pieces a text
is sent, and where a character is a byte the room can be counted in bytes. -/
namespace IdentifyBench

namespace Memory

theorem put_limited (held : String) (limit : Nat) (text : String) :
    Sink.put (⟨held, some limit⟩ : Memory) text =
      (⟨held ++ String.ofList (text.toList.take (limit - held.length)), some limit⟩,
        if text.length ≤ limit - held.length then none else some full) := by
  by_cases room : text.length ≤ limit - held.length
  · have whole : text.toList.take (limit - held.length) = text.toList :=
      List.take_of_length_le (String.length_toList ▸ room)
    rw [if_pos room, whole, String.ofList_toList]
    exact if_pos room
  · rw [if_neg room]
    exact if_neg room

theorem put_append (m : Memory) (first second : String) :
    Sink.put m (first ++ second) =
      match Sink.put m first with
      | (out, none) => Sink.put out second
      | (out, some fault) => (out, some fault) := by
  obtain ⟨held, limit⟩ := m
  cases limit with
  | none => simp [Sink.put, String.append_assoc]
  | some limit =>
    rw [put_limited, put_limited, String.toList_append, List.take_append, String.length_append,
      String.length_toList]
    by_cases room : first.length ≤ limit - held.length
    · have whole : first.toList.take (limit - held.length) = first.toList :=
        List.take_of_length_le (String.length_toList ▸ room)
      have left : limit - (held ++ first).length = limit - held.length - first.length := by
        rw [String.length_append]
        omega
      have enough : first.length + second.length ≤ limit - held.length ↔
          second.length ≤ limit - held.length - first.length := by omega
      simp only [if_pos room, whole, String.ofList_toList, put_limited, left, enough,
        String.ofList_append, String.append_assoc]
    · have short : ¬first.length + second.length ≤ limit - held.length := by omega
      have spent : limit - held.length - first.length = 0 := by omega
      simp [room, short, spent]

theorem putAll_eq_put (m : Memory) (pieces : List String) :
    Sink.putAll m pieces = Sink.put m (String.join pieces) := by
  induction pieces generalizing m with
  | nil =>
    obtain ⟨held, limit⟩ := m
    cases limit with
    | none => simp [Sink.putAll, Sink.put]
    | some limit => simp [Sink.putAll, put_limited]
  | cons piece rest ih =>
    rw [Sink.putAll, String.join_cons, put_append]
    rcases Sink.put m piece with ⟨out, _ | fault⟩
    · exact ih out
    · rfl

end Memory

section

variable {text : String} (single : ∀ c ∈ text.toList, c.utf8Size = 1)

include single

theorem size_toUTF8 : text.toUTF8.size = text.length := by
  have bytes : text.toUTF8 = text.toList.utf8Encode := by
    rw [← String.toByteArray_ofList, String.ofList_toList]
    rfl
  have sizes : text.toList.map (fun c => (String.utf8EncodeChar c).length) = text.toList.map fun _ => 1 :=
    List.map_congr_left fun c inside => (String.length_utf8EncodeChar c).trans (single c inside)
  rw [bytes, List.utf8Encode, List.size_toByteArray, List.length_flatMap, sizes,
    List.map_const', List.sum_replicate_nat, Nat.mul_one, String.length_toList]

/-- Cut after so many characters is cut after so many bytes. -/
theorem toUTF8_take (n : Nat) :
    (String.ofList (text.toList.take n)).toUTF8 = text.toUTF8.extract 0 (min n text.toUTF8.size) := by
  have split : text = String.ofList (text.toList.take n) ++ String.ofList (text.toList.drop n) := by
    rw [← String.ofList_append, List.take_append_drop, String.ofList_toList]
  have size : (String.ofList (text.toList.take n)).toUTF8.size = min n text.toUTF8.size := by
    rw [size_toUTF8, size_toUTF8 single]
    · simp [String.length_toList]
    · intro c inside
      rw [String.toList_ofList] at inside
      exact single c (List.mem_of_mem_take inside)
  have bytes : text.toUTF8 = (String.ofList (text.toList.take n)).toUTF8 ++
      (String.ofList (text.toList.drop n)).toUTF8 :=
    (congrArg String.toUTF8 split).trans String.toByteArray_append
  rw [← size, bytes]
  exact (ByteArray.extract_append_eq_left rfl).symm

end

end IdentifyBench
