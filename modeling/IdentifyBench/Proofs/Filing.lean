import IdentifyBench.Proofs.Delivery
import IdentifyBench.Storage

/-! A stream that fills a file. What it has written and what it still holds back are together what was
sent to it, and once it is flushed the file alone has all of it. A stream to the device that is always
full holds back what it can, and is never flushed. -/
namespace IdentifyBench.Storage

theorem fromUTF8?_toUTF8 (text : String) : String.fromUTF8? text.toUTF8 = some text :=
  dif_pos text.isValidUTF8

@[simp] theorem contents?_store (s : Storage) (place : Place) (bytes : ByteArray) :
    (s.store place bytes).contents? place = some bytes := by
  simp [contents?, store]

theorem node?_eq_directory_iff (s : Storage) (place : Place) :
    s.node? place = some .directory ↔ (alwaysDirectory place || s.directories.contains place) = true := by
  unfold node?
  split
  · rename_i found
    exact iff_of_true rfl found
  · rename_i missing
    refine iff_of_false ?_ missing
    split
    · simp
    · split <;> simp

theorem node?_fullDevice {s : Storage} (free : s.node? fullDevice ≠ some .directory) :
    s.node? fullDevice = some .full := by
  rw [Ne, node?_eq_directory_iff] at free
  unfold node?
  rw [if_neg free, if_pos rfl]

theorem seek_eq_ok_iff (s : Storage) (place : Place) (name : String) (found : Place × Option Node) :
    s.seek place name = .ok found ↔ name.utf8ByteSize ≤ Path.maxNameBytes ∧
      found = (place.step name, s.node? (place.step name)) := by
  rw [seek]
  split
  · rename_i long
    exact iff_of_false nofun fun all => Nat.not_le_of_lt long all.1
  · rename_i short
    rw [and_iff_right (Nat.le_of_not_lt short), Except.ok.injEq, eq_comm]

theorem walk_cons_iff (s : Storage) (place reached : Place) (name : String) (rest : List String) :
    s.walk place (name :: rest) = .ok reached ↔ name.utf8ByteSize ≤ Path.maxNameBytes ∧
      s.node? (place.step name) = some .directory ∧ s.walk (place.step name) rest = .ok reached := by
  rw [walk, seek]
  by_cases long : Path.maxNameBytes < name.utf8ByteSize
  · rw [if_pos long]
    exact iff_of_false nofun fun all => Nat.not_le_of_lt long all.1
  · rw [if_neg long, and_iff_right (Nat.le_of_not_lt long)]
    cases s.node? (place.step name) with
    | none => exact iff_of_false nofun fun all => nomatch all.1
    | some node =>
      cases node with
      | directory => exact (and_iff_right rfl).symm
      | file => exact iff_of_false nofun fun all => nomatch all.1
      | full => exact iff_of_false nofun fun all => nomatch all.1

/-- Files that come and go leave the ways through the directories. -/
theorem walk_of_directories {s d : Storage} (same : d.directories = s.directories)
    {place reached : Place} {names : List String} (walks : s.walk place names = .ok reached) :
    d.walk place names = .ok reached := by
  induction names generalizing place with
  | nil => exact walks
  | cons name rest ih =>
    rw [walk_cons_iff] at walks ⊢
    obtain ⟨short, leads, further⟩ := walks
    rw [node?_eq_directory_iff] at leads ⊢
    rw [same]
    exact ⟨short, leads, ih further⟩

/-- A text leads to a place in a directory, at which no other directory is. -/
structure Names (s : Storage) (text : String) (place : Place) : Prop where
  intro ::
  leads : ∃ path directory, Path.ofText text = .ok path ∧ s.walk path.start path.way = .ok directory ∧
    path.last.utf8ByteSize ≤ Path.maxNameBytes ∧ path.slash = false ∧ directory.step path.last = place
  free : s.node? place ≠ some .directory

theorem create_of_ok {s created : Storage} {text : String} {target : Destination}
    (makes : s.create text = .ok (created, target)) :
    ∃ place, s.Names text place ∧ (created, target) =
      if s.node? place = some .full then (s, .full) else (s.store place .empty, .file place) := by
  unfold create at makes
  cases parsed : Path.ofText text with
  | error fault =>
    rw [parsed] at makes
    cases makes
  | ok path =>
    cases walked : s.walk path.start path.way with
    | error fault =>
      simp only [bind, Except.bind, parsed, walked] at makes
      cases makes
    | ok directory =>
      simp only [bind, Except.bind, parsed, walked] at makes
      split at makes
      · cases makes
      · rename_i bare
        cases sought : s.seek directory path.last with
        | error fault =>
          rw [sought] at makes
          cases makes
        | ok found =>
          rw [sought] at makes
          obtain ⟨short, rfl⟩ := (s.seek_eq_ok_iff ..).mp sought
          have named (free : s.node? (directory.step path.last) ≠ some .directory) :
              s.Names text (directory.step path.last) :=
            ⟨⟨path, directory, parsed, walked, short, Bool.not_eq_true _ ▸ bare, rfl⟩, free⟩
          refine ⟨directory.step path.last, ?_⟩
          rcases node : s.node? (directory.step path.last) with _ | _ | _ | _
          · rw [node] at makes named
            exact ⟨named nofun, (Except.ok.inj makes).symm.trans (if_neg nofun).symm⟩
          · rw [node] at makes
            cases makes
          · rw [node] at makes named
            exact ⟨named nofun, (Except.ok.inj makes).symm.trans (if_neg nofun).symm⟩
          · rw [node] at makes named
            exact ⟨named nofun, (Except.ok.inj makes).symm.trans (if_pos rfl).symm⟩

theorem create_cases {s created : Storage} {text : String} {target : Destination}
    (makes : s.create text = .ok (created, target)) :
    target = .full ∧ created = s ∨
      ∃ place, s.Names text place ∧ place ≠ fullDevice ∧ target = .file place ∧
        created = s.store place .empty := by
  obtain ⟨place, names, made⟩ := create_of_ok makes
  split at made
  · cases made
    exact .inl ⟨rfl, rfl⟩
  · rename_i takes
    cases made
    refine .inr ⟨place, names, ?_, rfl, rfl⟩
    rintro rfl
    exact takes (node?_fullDevice names.free)

/-- What was made under a name is found under it, whatever else has become of the files. -/
theorem read_of_names {s d : Storage} {text contents : String} {place : Place}
    (names : s.Names text place) (apart : place ≠ fullDevice)
    (same : d.directories = s.directories) (holds : d.contents? place = some contents.toUTF8) :
    d.read text = .ok contents := by
  obtain ⟨⟨path, directory, parsed, walked, short, bare, rfl⟩, free⟩ := names
  have node : d.node? (directory.step path.last) = some .file := by
    unfold node?
    rw [Ne, node?_eq_directory_iff, ← same] at free
    rw [if_neg free, if_neg apart, holds]
    rfl
  have sought := (d.seek_eq_ok_iff directory path.last _).mpr ⟨short, rfl⟩
  rw [node] at sought
  unfold read
  simp only [bind, Except.bind, parsed, walk_of_directories same walked, sought]
  rw [if_neg (by simp [bare]), holds, Option.bind_some, fromUTF8?_toUTF8]
  rfl

/-! ### Files that are there from the start -/

theorem walk_of_placesFrom {s : Storage} {place : Place} {names : List String}
    (short : ∀ name ∈ names, name.utf8ByteSize ≤ Path.maxNameBytes)
    (exist : ∀ passed ∈ Path.placesFrom place names, s.node? passed = some .directory) :
    s.walk place names = .ok (names.foldl Place.step place) := by
  induction names generalizing place with
  | nil => rfl
  | cons name rest ih =>
    rw [List.forall_mem_cons] at short
    rw [Path.placesFrom, List.forall_mem_cons] at exist
    exact (walk_cons_iff ..).mpr ⟨short.1, exist.1, ih short.2 exist.2⟩

theorem step_last (path : Path) :
    (path.way.foldl Place.step path.start).step path.last = path.place := by
  rcases List.eq_nil_or_concat path.names with nameless | ⟨way, last, named⟩
  · simp [Path.way, Path.last, Path.place, nameless, Place.step]
  · simp [Path.way, Path.last, Path.place, named]

theorem directory_of_mem {s : Storage} {place : Place} (known : place ∈ s.directories) :
    s.node? place = some .directory := by
  rw [node?_eq_directory_iff, Bool.or_eq_true]
  exact .inr (List.contains_iff_mem.mpr known)

/-- An installed file is found under its path, through directories that need not have been there. -/
theorem read_install {s : Storage} {text contents : String} {path : Path}
    (parsed : Path.ofText text = .ok path) (bare : path.slash = false)
    (short : ∀ name ∈ path.names, name.utf8ByteSize ≤ Path.maxNameBytes)
    (apart : path.place ≠ fullDevice)
    (free : (s.install path contents.toUTF8).node? path.place ≠ some .directory) :
    (s.install path contents.toUTF8).read text = .ok contents := by
  have exist : ∀ passed ∈ Path.placesFrom path.start path.way,
      (s.install path contents.toUTF8).node? passed = some .directory :=
    fun passed inside => directory_of_mem (List.mem_append_left _ inside)
  have walked := walk_of_placesFrom (fun name inside => short name (List.dropLast_subset _ inside)) exist
  have last : path.last.utf8ByteSize ≤ Path.maxNameBytes := by
    unfold Path.last
    cases named : path.names.getLast? with
    | none => decide
    | some name => exact short name (List.mem_of_getLast? named)
  exact read_of_names
    ⟨⟨path, _, parsed, walked, last, bare, step_last path⟩, free⟩ apart rfl (contents?_store ..)

/-! ### What a stream fills -/

/-- The stream fills a file, and it has written all of what the file holds. -/
def Filling (directories : List Place) (place : Place) (s : Storage) : Prop :=
  s.directories = directories ∧ ∃ written pending : String,
    s.stream = some ⟨.file place, written.utf8ByteSize, pending⟩ ∧
      s.contents? place = some written.toUTF8

/-- What was sent to the stream: what the file holds, and then what is held back. -/
def sent (place : Place) (s : Storage) : String :=
  ((s.contents? place).bind String.fromUTF8?).getD "" ++ s.stream.elim "" (·.pending)

section

variable {directories : List Place} {place : Place} {s : Storage}

theorem sent_of_contents {written : String} (holds : s.contents? place = some written.toUTF8) :
    s.sent place = written ++ s.stream.elim "" (·.pending) := by
  rw [sent, holds, Option.bind_some, fromUTF8?_toUTF8]
  rfl

theorem sent_of_written {written : String} (holds : s.contents? place = some written.toUTF8)
    (nothing : s.stream.elim "" (·.pending) = "") : s.sent place = written := by
  rw [sent_of_contents holds, nothing, String.append_empty]

theorem Filling.flush (filling : s.Filling directories place) :
    ∃ d, s.flushStream = (d, none) ∧ d.Filling directories place ∧ d.sent place = s.sent place ∧
      d.contents? place = some (s.sent place).toUTF8 := by
  obtain ⟨same, written, pending, stream, holds⟩ := id filling
  have sent := sent_of_contents holds
  unfold flushStream
  rw [stream] at sent ⊢
  dsimp only [Option.elim] at sent ⊢
  by_cases empty : pending.isEmpty = true
  · rw [if_pos empty]
    rw [String.isEmpty_iff] at empty
    refine ⟨s, rfl, filling, rfl, ?_⟩
    rw [sent, empty, String.append_empty]
    exact holds
  · have whole : overlay ((s.contents? place).getD .empty) written.utf8ByteSize pending.toUTF8 =
        (written ++ pending).toUTF8 := by
      rw [holds]
      exact (if_pos rfl).trans String.toByteArray_append.symm
    rw [if_neg empty, whole]
    refine ⟨_, rfl, ⟨same, written ++ pending, "", ?_, contents?_store ..⟩, ?_, ?_⟩
    · rw [String.utf8ByteSize_append]
      rfl
    · rw [sent]
      exact sent_of_written (contents?_store ..) rfl
    · rw [sent]
      exact contents?_store ..

theorem Filling.put (filling : s.Filling directories place) (piece : String) :
    (Sink.put s piece).2 = none ∧ (Sink.put s piece).1.Filling directories place ∧
      (Sink.put s piece).1.sent place = s.sent place ++ piece := by
  have held {d : Storage} (filling : d.Filling directories place) :
      let e := { d with stream := d.stream.map fun stream : Stream =>
        { stream with pending := stream.pending ++ piece } }
      e.Filling directories place ∧ e.sent place = d.sent place ++ piece := by
    obtain ⟨same, written, pending, stream, holds⟩ := filling
    rw [sent_of_contents holds, stream, String.append_assoc]
    exact ⟨⟨same, written, pending ++ piece, rfl, holds⟩, sent_of_contents holds⟩
  obtain ⟨d, flushes, filling', sent, _⟩ := filling.flush
  simp only [Sink.put]
  by_cases wide : capacity < s.stream.elim 0 (·.pending.utf8ByteSize) + piece.utf8ByteSize
  · rw [if_pos wide, flushes]
    rw [← sent]
    exact ⟨rfl, held filling'⟩
  · rw [if_neg wide]
    exact ⟨rfl, held filling⟩

theorem accepting (directories : List Place) (place : Place) :
    Sink.Accepting (Filling directories place) (sent place) where
  takes piece filling := (filling.put piece).1
  stays piece filling := (filling.put piece).2.1
  keeps piece filling := (filling.put piece).2.2

end

def Drained (s : Storage) : Prop := s.stream.elim "" (·.pending) = ""

theorem Drained.flush {s : Storage} (drained : s.Drained) : s.flushStream = (s, none) := by
  unfold Drained at drained
  unfold flushStream
  cases stream : s.stream with
  | none => rfl
  | some held =>
    rw [stream] at drained
    exact if_pos (String.isEmpty_iff.mpr drained)

theorem drained_of_flush {s d : Storage} (flushes : s.flushStream = (d, none)) : d.Drained := by
  unfold flushStream at flushes
  split at flushes
  · rename_i closed
    cases flushes
    rw [Drained, closed]
    rfl
  · rename_i held stream
    split at flushes
    · rename_i empty
      cases flushes
      rw [Drained, stream]
      exact String.isEmpty_iff.mp empty
    · split at flushes
      · cases flushes
      · cases flushes
        rfl

/-- The stream goes to the device that is always full, and holds something back. -/
def Blocked (s : Storage) : Prop :=
  ∃ offset pending, s.stream = some ⟨.full, offset, pending⟩ ∧ pending ≠ ""

variable {s : Storage}

theorem Blocked.flush (blocked : s.Blocked) : s.flushStream = (s, some .noSpace) := by
  obtain ⟨offset, pending, stream, held⟩ := blocked
  unfold flushStream
  rw [stream]
  exact if_neg (String.isEmpty_iff.not.mpr held)

theorem Blocked.put (blocked : s.Blocked) (piece : String) : (Sink.put s piece).1.Blocked := by
  obtain ⟨offset, pending, stream, held⟩ := id blocked
  simp only [Sink.put]
  by_cases wide : capacity < s.stream.elim 0 (·.pending.utf8ByteSize) + piece.utf8ByteSize
  · rw [if_pos wide, blocked.flush]
    exact blocked
  · rw [if_neg wide]
    refine ⟨offset, pending ++ piece, ?_, ?_⟩
    · rw [stream]
      rfl
    · exact fun empty => held (String.append_eq_empty_iff.mp empty).1

/-- The device takes a first piece, since that can be held back, and from then on it is stuck. -/
theorem blocked_of_putAll (stream : s.stream = some ⟨.full, 0, ""⟩) {first : String} (nonempty : first ≠ "")
    (rest : List String) : (Sink.putAll s (first :: rest)).1.Blocked := by
  have drained : s.Drained := by
    rw [Drained, stream]
    rfl
  obtain ⟨d, held, blocked⟩ : ∃ d, Sink.put s first = (d, none) ∧ d.Blocked := by
    simp only [Sink.put]
    rw [drained.flush, ite_self, stream]
    exact ⟨_, rfl, 0, "" ++ first, rfl, by rw [String.empty_append]; exact nonempty⟩
  rw [Sink.putAll, held]
  exact Waveform.putAll_keeps (P := Blocked) (fun piece held => held.put piece) blocked rest

theorem blocked_of_start (stream : s.stream = some ⟨.full, 0, ""⟩) : (Waveform.start s).1.Blocked := by
  obtain ⟨first, rest, header, nonempty⟩ : ∃ first rest, Waveform.header = first :: rest ∧ first ≠ "" :=
    ⟨_, _, rfl, by decide⟩
  rw [Waveform.start, header]
  exact blocked_of_putAll stream nonempty rest

theorem openBeside_cases {opened : Storage} {text : String} (opens : s.openBeside text = .ok opened) :
    s.create text = .ok (s, .full) ∧ opened.stream = some ⟨.full, 0, ""⟩ ∨
      ∃ place, s.Names text place ∧ place ≠ fullDevice ∧ opened.Filling s.directories place ∧
        opened.sent place = "" := by
  unfold openBeside at opens
  cases made : s.create text with
  | error fault =>
    rw [made] at opens
    cases opens
  | ok pair =>
    obtain ⟨created, target⟩ := pair
    rw [made] at opens
    cases opens
    rcases create_cases made with ⟨rfl, rfl⟩ | ⟨place, names, apart, rfl, rfl⟩
    · exact .inl ⟨rfl, rfl⟩
    · have holds : (s.store place .empty).contents? place = some "".toUTF8 := contents?_store ..
      exact .inr ⟨place, names, apart, ⟨rfl, "", "", rfl, holds⟩, sent_of_written holds rfl⟩

theorem openStream_of_quiet (quiet : s.stream = none) (text : String) :
    s.openStream text = s.openBeside text := by
  unfold openStream openBeside
  cases made : s.create text with
  | error fault => rfl
  | ok pair =>
    obtain ⟨created, target⟩ := pair
    have same : created.stream = none := by
      rcases create_cases made with ⟨_, rfl⟩ | ⟨_, _, _, _, rfl⟩ <;> exact quiet
    have closed : created.close = created := by
      unfold close flushStream
      rw [same]
      exact congrArg (Storage.mk _ _) same.symm
    simp only [bind, Except.bind]
    rw [closed]

theorem openStream_cases {opened : Storage} {text : String} (quiet : s.stream = none)
    (opens : s.openStream text = .ok opened) :
    opened.stream = some ⟨.full, 0, ""⟩ ∨
      ∃ place, s.Names text place ∧ place ≠ fullDevice ∧ opened.Filling s.directories place ∧
        opened.sent place = "" :=
  (openBeside_cases ((openStream_of_quiet quiet text).symm.trans opens)).imp And.right id

/-- The device never has a whole dump: what it takes, it only holds back. -/
theorem blocked_of_dump {before : Storage} {w : Waveform} {samples : List Snapshot}
    (stream : s.stream = some ⟨.full, 0, ""⟩)
    (dumped : Waveform.dump s samples = (w, before, none)) : before.Blocked := by
  have begun := blocked_of_start stream
  unfold Waveform.dump at dumped
  split at dumped
  · rename_i out started
    rw [started] at begun
    have kept := Waveform.record_keeps (P := Blocked) (fun piece held => held.put piece) .blank begun
      samples
    rw [dumped] at kept
    exact kept
  · cases congrArg (·.2.2) dumped

/-- Once it is flushed, a file has the whole dump that was sent to it. -/
theorem read_of_dump {opened before filed : Storage} {text : String} {w : Waveform}
    {samples : List Snapshot} (quiet : s.stream = none) (opens : s.openStream text = .ok opened)
    (dumped : Waveform.dump opened samples = (w, before, none))
    (flushes : Sink.flush before = (filed, none)) :
    ∃ w after, Waveform.dump (Memory.empty none) samples = (w, after, none) ∧
      filed.read text = .ok after.text := by
  rcases openStream_cases quiet opens with stream | ⟨place, names, apart, filling, nothing⟩
  · cases (blocked_of_dump stream dumped).flush.symm.trans flushes
  · obtain ⟨w', full, after, written, recorded, ready, same⟩ :=
      Waveform.dump_alike (accepting s.directories place) Memory.accepting filling
        (rfl : (Memory.empty none).limit = none) nothing samples
    obtain rfl : full = before := congrArg (·.2.1) (written.symm.trans dumped)
    obtain ⟨d, flushed, filled, -, holds⟩ := ready.flush
    obtain rfl : d = filed := congrArg Prod.fst (flushed.symm.trans flushes)
    refine ⟨w', after, recorded, read_of_names names apart filled.1 ?_⟩
    rw [holds, same]

end IdentifyBench.Storage
