import IdentifyBench.Sink

/-! The files of a program, whatever comes of each operation on them. At any time one file at most is open
to be filled, and text sent to the files goes there. -/
namespace IdentifyBench

class Files (κ : Type) extends Sink κ where
  /-- The text of a file. -/
  read : κ → String → Except StorageFault String
  /-- Opens an empty file, and ends the one open before. -/
  openStream : κ → String → Except StorageFault κ
  /-- Opens an empty file for the time being. -/
  openBeside : κ → String → Except StorageFault κ
  /-- Ends the second file and goes back to what was open before. -/
  resume (before beside : κ) : κ
  /-- Ends the open file. What it holds back is written if it can be. -/
  close : κ → κ
  /-- Ends the open file and leaves unwritten what it holds back. -/
  abandon : κ → κ

end IdentifyBench
