import Redbase.Page.Run

/-!
# A page file on a `PageIo` whose calls may fail

The runs of a page file whose I/O calls may fail at any point, and a `PageIo` that fails as a script
tells it to.
-/

namespace Redbase.Page

open Prog Bytes PageFile

section Runs

variable {I : Type} [PageIo I]

/-- The page that an operation passes to `load_page` first. -/
def loads (s : PageFile I) : Op → Option Nat
  | .allocate _ =>
      if s.header.firstFreePage ≠ freeListEnd then some (asU32 s.header.firstFreePage) else none
  | .read p | .write p _ | .dispose p => some p
  | .flush | .reopen => none

/-- `load_page(p)`, started in `s`, comes to its `read_exact_at` in the state `u`; the read fails
and leaves `b` in the buffer. -/
structure FailedRead (s : PageFile I) (p : Nat) (u : PageFile I) (b : PageBuf) : Prop where
  inRange : p < s.header.numPages
  notLoaded : s.loadedPageId ≠ some p
  wroteBack : flushLoadedPage s = .ok () u
  fails : ∃ offset e io, pageOffset p = .ok offset ∧
    PageIo.readExactAt offset (u.io, u.loadedPage) = .error e (io, b)

/-- The `set_len` of `allocate_page`, started in `s`, fails. -/
def GrowthFails (s : PageFile I) : Prop :=
  ∃ u numPages e io, flushLoadedPage s = .ok () u ∧
    checked 32 (u.header.numPages + 1) = some numPages ∧
    PageIo.setLen (fileHeaderSize + numPages * pageSize) u.io = .error e io

/-- Page `p` as it is stored after the resident page is written back. -/
def PageFile.kept {I : Type} [ByteIo I] (s : PageFile I) (p : Nat) : PageBuf :=
  if s.loadedPageId = some p ∧ s.loadedPageDirty = true then s.loadedPage
  else pageAt (ByteIo.content s.io) p

/-- When the read of `load_page` fails, `R` relates the resident page, as it is stored, to what is
left in the buffer. -/
def Leaves {I : Type} [ByteIo I] (R : PageBuf → PageBuf → Prop) (s : PageFile I) (op : Op) : Prop :=
  ∀ p ∈ loads s op, ∀ u b r, FailedRead s p u b → s.loadedPageId = some r → R (s.kept r) b

/-- The runs on a file created on `io` whose steps meet `ok`, with their history, newest first. Any
call on `io` may fail, apart from those of the write-back when the file is dropped. -/
inductive FaultyRun (ok : PageFile I → Op → Prop) (io : I) : List (Op × Reply) → PageFile I → Prop
  | create {s : PageFile I} : create io = .ok () s → FaultyRun ok io [] s
  | step {h : List (Op × Reply)} {s : PageFile I} (op : Op) : FaultyRun ok io h s →
      (op = .reopen → ∃ t, flush s = .ok () t) → ok s op →
      FaultyRun ok io ((op, (step s op).2) :: h) (step s op).1

/-- The buffer `b` does not show other data under the id of a page in use, and shows a free page
with its link. -/
def ShowsAs (page b : PageBuf) : Prop :=
  (page.nextFree = pageUsed → b.nextFree = pageUsed → b.data = page.data) ∧
    (page.nextFree ≠ pageUsed → b.nextFree = page.nextFree)

/-- A failed read leaves the resident page as `ShowsAs` says, and no page is disposed of whose id,
as a link, is the mark of a page in use. -/
def Sparing {I : Type} [ByteIo I] (s : PageFile I) (op : Op) : Prop :=
  Leaves ShowsAs s op ∧
    match op with
    | .dispose p => asI32 p ≠ pageUsed
    | _ => True

/-- A failed read leaves the link of the resident page, `set_len` does not fail, and no page is
disposed of whose id does not fit into a link. -/
def Orderly {I : Type} [ByteIo I] (s : PageFile I) (op : Op) : Prop :=
  Leaves (fun page b => b.nextFree = page.nextFree) s op ∧
    match op with
    | .allocate _ => s.header.firstFreePage = freeListEnd → ¬ GrowthFails s
    | .dispose p => p < 2 ^ 31
    | _ => True

/-- The id that `allocate_page` hands out in the state `s`, if it succeeds. -/
def nextPageId (s : PageFile I) : Nat :=
  if s.header.firstFreePage ≠ freeListEnd then asU32 s.header.firstFreePage else s.header.numPages

/-- A step that neither hands out a page nor takes one back. -/
def Idle : Op × Reply → Prop
  | (_, .allocated _ _) => False
  | (.dispose _, .done) => False
  | _ => True

end Runs

/-! ## A disk that fails -/

/-- A disk with the outcomes of its next calls: `none` succeeds, `some n` fails, a read after it has
copied `n` bytes. -/
structure FaultyIo where
  disk : DiskPageIo
  outcomes : List (Option Nat)

namespace FaultyIo

/-- The next call fails if its outcome says so; then it does nothing. -/
def call {α : Type} (m : EStateM IoError DiskPageIo α) : EStateM IoError FaultyIo α := fun io =>
  match io.outcomes with
  | some _ :: rest => .error (.other 5) { io with outcomes := rest }
  | _ => zoom (·.disk) (fun disk io => { io with disk }) m { io with outcomes := io.outcomes.tail }

def readExactAt (offset : Nat) : EStateM IoError (FaultyIo × PageBuf) Unit := fun (io, buf) =>
  match io.outcomes with
  | some n :: rest =>
      .error (.other 5)
        ({ io with outcomes := rest }, buf.write 0 (slice io.disk.file offset (min n pageSize)))
  | _ =>
      zoom (fun t => (t.1.disk, t.2)) (fun t u => ({ u.1 with disk := t.1 }, t.2))
        (DiskPageIo.readExactAt offset) ({ io with outcomes := io.outcomes.tail }, buf)

instance : PageIo FaultyIo where
  readExactAt := readExactAt
  writeAllAt offset buf := call (PageIo.writeAllAt offset buf)
  setLen n := call (PageIo.setLen n)
  len := call PageIo.len
  syncAll := call PageIo.syncAll

theorem wp_call {α : Type} {m : EStateM IoError DiskPageIo α} {Q : α → FaultyIo → Prop}
    {E : IoError → FaultyIo → Prop} {io : FaultyIo}
    (hm : ∀ rest, wp m (fun a d => Q a ⟨d, rest⟩) (fun e d => E e ⟨d, rest⟩) io.disk)
    (hE : ∀ e rest, E e ⟨io.disk, rest⟩) : wp (call m) Q E io := by
  have hz : ∀ rest, wp (zoom (·.disk) (fun disk io => { io with disk }) m) Q E ⟨io.disk, rest⟩ :=
    fun rest => (wp_zoom ..).mpr (hm rest)
  obtain ⟨disk, _ | ⟨_ | n, rest⟩⟩ := io
  · exact hz []
  · exact hz rest
  · exact hE _ rest

theorem readExactAt_spec (io : FaultyIo) (buf : PageBuf) (offset : Nat) :
    wp (readExactAt offset)
      (fun _ t => t.1.disk = io.disk ∧ t.2.bytes = slice io.disk.file offset pageSize)
      (fun _ t => t.1.disk = io.disk) (io, buf) := by
  have hz : ∀ rest, wp (zoom (fun t : FaultyIo × PageBuf => (t.1.disk, t.2))
      (fun t u => ({ u.1 with disk := t.1 }, t.2)) (DiskPageIo.readExactAt offset))
      (fun _ t => t.1.disk = io.disk ∧ t.2.bytes = slice io.disk.file offset pageSize)
      (fun _ t => t.1.disk = io.disk) (⟨io.disk, rest⟩, buf) := fun rest =>
    (wp_zoom ..).mpr (wp_mono (DiskPageIo.readExactAt_spec io.disk buf offset)
      (fun _ _ h => ⟨h.1, h.2.2⟩) fun _ _ h => h.1)
  obtain ⟨disk, _ | ⟨_ | n, rest⟩⟩ := io
  · exact hz []
  · exact hz rest
  · rfl

instance : ByteIo FaultyIo where
  content io := io.disk.file
  read_spec io buf offset :=
    wp_mono (readExactAt_spec io buf offset) (fun _ _ h => ⟨congrArg (·.file) h.1, h.2⟩)
      fun _ _ h => congrArg (·.file) h
  write_spec _ _ _ := wp_call (fun _ => rfl) fun _ _ => rfl
  setLen_spec _ _ := wp_call (fun _ => rfl) fun _ _ => rfl
  len_spec _ := wp_call (fun _ => ⟨rfl, rfl⟩) fun _ _ => rfl
  sync_spec _ := wp_call (fun _ => rfl) fun _ _ => rfl

end FaultyIo

end Redbase.Page
