import Redbase.Buffer.Lemmas.Frames
import Redbase.Page.Lemmas.Layout

/-!
# A pool that was only read

As long as only `get_page` is called, no frame and no file is dirty and the bytes of the files are
what they were. A flush then writes nothing.
-/

namespace Redbase.Buffer

open Prog Bytes Page Function BufferPoolState PageFile ByteIo

variable {I : Type} [ByteIo I] {cap : Nat} {s : BufferPoolState (PageFile I) cap} {f : Fin cap}
  {bytes : List UInt8} {file : PageFile I}

/-- A page file with nothing to write back, over `bytes`. -/
structure CleanFile (file : PageFile I) (bytes : List UInt8) : Prop where
  content : content file.io = bytes
  headerDirty : file.headerDirty = false
  loadedPageDirty : file.loadedPageDirty = false

/-- Nothing is dirty, and every file has the bytes `bytes`. -/
structure Reading (s : BufferPoolState (PageFile I) cap) (bytes : List UInt8) : Prop where
  frames : ∀ f, (s.frames f).dirty = false
  files : ∀ fileId file, s.files fileId = some file → CleanFile file bytes

/-! ## One file -/

theorem flushLoadedPage_clean (h : CleanFile file bytes) {Q : Unit → PageFile I → Prop}
    {E : PageStoreError → PageFile I → Prop} : wp flushLoadedPage Q E file ↔ Q () file := by
  unfold flushLoadedPage
  simp only [wp_bind, wp_get]
  cases file.loadedPageId with
  | none => exact Iff.rfl
  | some pageId =>
      simp only [wp_bind, wp_get, h.loadedPageDirty, wp_ite, wp_pure]
      rw [if_pos trivial]

theorem loadPage_clean (h : CleanFile file bytes) (pageId : Nat) :
    wp (loadPage pageId) (fun _ t => CleanFile t bytes) (fun _ t => CleanFile t bytes) file := by
  unfold loadPage ensurePageIdInRange readLoadedPage
  simp only [wp_bind, wp_get, wp_ite, wp_throw, wp_pure, wp_modify, flushLoadedPage_clean h]
  split
  · exact h
  · split
    · exact h
    · cases pageOffset pageId with
      | error e => exact h
      | ok offset =>
          simp only [wp_lift_ok, wp_mapError, wp_zoom]
          refine wp_mono (read_spec file.io file.loadedPage offset) ?_ ?_
          · rintro _ t ⟨ht, -⟩
            exact ⟨ht.trans h.content, h.headerDirty, rfl⟩
          · intro _ t ht
            exact ⟨ht.trans h.content, h.headerDirty, h.loadedPageDirty⟩

theorem storeRead_clean (h : CleanFile file bytes) (pageId : Nat) :
    wp (PageStore.readPage pageId) (fun _ t => CleanFile t bytes)
      (fun _ t => CleanFile t bytes) file := by
  simp only [PageStore.readPage, readPage, ensureCurrentPageIsUsed, wp_bind, wp_get, wp_ite,
    wp_throw, wp_pure]
  refine wp_mono (loadPage_clean h pageId) (fun _ t ht => ?_) fun _ _ => id
  split
  · exact ht
  · exact ht

theorem flush_clean (h : CleanFile file bytes) :
    wp PageFile.flush (fun _ t => CleanFile t bytes) (fun _ t => CleanFile t bytes) file := by
  unfold PageFile.flush flushHeader liftIo
  simp only [wp_bind, flushLoadedPage_clean h, wp_get, h.headerDirty, wp_ite, wp_pure,
    wp_mapError, wp_zoom]
  rw [if_pos trivial]
  refine wp_mono (sync_spec file.io) ?_ ?_
  · exact fun _ io hio => ⟨hio.trans h.content, rfl, h.loadedPageDirty⟩
  · exact fun _ io hio => ⟨hio.trans h.content, rfl, h.loadedPageDirty⟩

theorem CleanFile.drop_eq (h : CleanFile file bytes) :
    ByteIo.content (PageFile.drop file) = bytes :=
  (wp_final (R := fun t => CleanFile t bytes) (flush_clean h)).content

theorem readHeaderBuf_content (io : I) :
    wp readHeaderBuf (fun _ t => ByteIo.content t = ByteIo.content io)
      (fun _ t => ByteIo.content t = ByteIo.content io) io := by
  have hread := read_spec io (Block.zero _) 0
  unfold wp at hread
  unfold wp readHeaderBuf
  cases hr : PageIo.readExactAt 0 (io, Block.zero pageSize) with
  | ok _ t =>
      rw [hr] at hread
      exact hread.1
  | error e t =>
      rw [hr] at hread
      exact hread

/-- A page file that has just been opened has nothing to write back. -/
theorem open_clean (io : I) :
    wp PageFile.open (fun file _ => CleanFile file (ByteIo.content io))
      (fun _ t => ByteIo.content t = ByteIo.content io) io := by
  unfold PageFile.open
  simp only [wp_bind, wp_mapError, wp_ite, wp_throw]
  refine wp_mono (len_spec io) ?_ fun _ _ => id
  rintro len t ⟨-, ht⟩
  split
  · exact ht
  · refine wp_mono (readHeaderBuf_content t) ?_ fun _ _ h => h.trans ht
    intro buf u hu
    cases FileHeader.decode buf with
    | error e => exact hu.trans ht
    | ok header =>
        simp only [wp_lift_ok, wp_get, wp_pure]
        split
        · exact hu.trans ht
        · exact ⟨hu.trans ht, rfl, rfl⟩

/-! ## The pool -/

namespace Reading

theorem new : Reading (BufferPoolState.new (PageFile I) cap) bytes :=
  ⟨fun _ => rfl, fun _ _ hf => by cases hf⟩

theorem modifyFrame (h : Reading s bytes) {c : Frame cap → Frame cap}
    (hc : (c (s.frames f)).dirty = false) :
    Reading (s.modifyFrame f c) bytes := by
  refine ⟨fun x => ?_, h.files⟩
  rw [modifyFrame_frames]
  split
  · exact hc
  · exact h.frames x

theorem setFile (h : Reading s bytes) (fileId : Nat) (hc : CleanFile file bytes) :
    Reading { s with files := update s.files fileId (some file) } bytes := by
  refine ⟨h.frames, fun fileId' file' hf => ?_⟩
  change update s.files fileId (some file) fileId' = some file' at hf
  rcases eq_or_ne fileId' fileId with rfl | hne
  · rw [update_self, Option.some.injEq] at hf
    exact hf ▸ hc
  · rw [update_of_ne hne] at hf
    exact h.files fileId' file' hf

/-- The links are no part of it. -/
theorem of_same {t : BufferPoolState (PageFile I) cap} (h : Reading s bytes)
    (hf : ∀ x, (t.frames x).dirty = (s.frames x).dirty) (hfiles : t.files = s.files) :
    Reading t bytes :=
  ⟨fun x => (hf x).trans (h.frames x), hfiles ▸ h.files⟩

theorem linkHead (h : Reading s bytes) : Reading (s.linkHead f) bytes := by
  rw [linkHead_eq]
  exact h.of_same (fun _ => rfl) rfl

theorem touch (h : Reading s bytes) : Reading (s.touch f) bytes := by
  rw [touch_eq]
  exact h.of_same (fun _ => rfl) rfl

theorem unlink (h : Reading s bytes) : Reading (s.unlink f) bytes := by
  rw [unlink_eq]
  exact h.of_same (fun _ => rfl) rfl

theorem unpinFrame (h : Reading s bytes) : Reading (s.unpinFrame f) bytes := by
  unfold BufferPoolState.unpinFrame
  split
  · exact h
  · have hm :=
      h.modifyFrame (f := f)
        (c := fun frame => { frame with pinCount := frame.pinCount - 1 }) (h.frames f)
    show Reading (if _ then _ else _) bytes
    split
    · exact hm.touch
    · exact hm

end Reading

theorem pinFrame_reading (h : Reading s bytes) (f : Fin cap) :
    wp (pinFrame f) (fun _ t => Reading t bytes) (fun _ t => Reading t bytes) s := by
  unfold pinFrame
  simp only [wp_bind, wp_get]
  cases checked 32 ((s.frames f).pinCount + 1) with
  | none => exact h
  | some pinCount => exact (h.modifyFrame (h.frames f)).touch

theorem flushFrameIfDirty_reading (h : Reading s bytes) (f : Fin cap)
    {Q : Unit → BufferPoolState (PageFile I) cap → Prop}
    {E : Stop BufferPoolError → BufferPoolState (PageFile I) cap → Prop} :
    wp (flushFrameIfDirty f) Q E s ↔ Q () s := by
  unfold flushFrameIfDirty
  simp only [wp_bind, wp_get, h.frames, wp_ite, wp_pure]
  rw [if_pos trivial]

theorem recycleFrame_reading (h : Reading s bytes) (f : Fin cap) :
    wp (recycleFrame f) (fun _ t => Reading t bytes) (fun _ t => Reading t bytes) s := by
  unfold recycleFrame
  simp only [wp_bind, wp_get, wp_ite, wp_throw, wp_modify]
  split
  · exact h
  · have hk := h.modifyFrame (f := f) (c := fun frame => { frame with key := none }) (h.frames f)
    cases (s.frames f).key with
    | none => exact (hk.modifyFrame rfl).unlink
    | some key =>
        have ht : Reading { s.modifyFrame f fun frame => { frame with key := none } with
            pageTable := update s.pageTable key none } bytes := hk.of_same (fun _ => rfl) rfl
        exact (ht.modifyFrame rfl).unlink

theorem acquireFrom_reading (h : Reading s bytes) (fuel : Nat) (cursor : Option (Fin cap)) :
    wp (acquireFrom fuel cursor) (fun _ t => Reading t bytes) (fun _ t => Reading t bytes) s := by
  induction fuel generalizing cursor with
  | zero => cases cursor <;> exact h
  | succ fuel ih =>
      cases cursor with
      | none => exact h
      | some f =>
          unfold acquireFrom
          simp only [wp_bind, wp_get, wp_ite, flushFrameIfDirty_reading h]
          split
          · refine wp_mono (recycleFrame_reading h f) (fun _ t ht => ?_) fun _ _ => id
            exact ht.touch
          · exact ih _

theorem acquireFrame_reading (h : Reading s bytes) :
    wp acquireFrame (fun _ t => Reading t bytes) (fun _ t => Reading t bytes) s := by
  unfold acquireFrame
  simp only [wp_bind, wp_get]
  cases s.freeList with
  | nil => exact acquireFrom_reading h cap _
  | cons f rest =>
      have ht : Reading { s with freeList := rest } bytes := h.of_same (fun _ => rfl) rfl
      exact ht.linkHead

theorem registerFile_reading (h : Reading s bytes) (hc : CleanFile file bytes) :
    wp (registerFile file) (fun _ t => Reading t bytes) (fun _ t => Reading t bytes) s := by
  unfold registerFile
  simp only [wp_bind, wp_get]
  cases checked 32 (s.nextFileId + 1) with
  | none => exact h
  | some nextFileId =>
      simp only [wp_bind, wp_modify, wp_pure]
      exact (h.setFile s.nextFileId hc).of_same (fun _ => rfl) rfl

theorem withFile_reading {α : Type} {m : EStateM PageStoreError (PageFile I) α}
    (h : Reading s bytes) (fileId : Nat) (hm : ∀ file, CleanFile file bytes →
      wp m (fun _ t => CleanFile t bytes) (fun _ t => CleanFile t bytes) file) :
    wp (withFile fileId m) (fun _ t => Reading t bytes) (fun _ t => Reading t bytes) s := by
  unfold withFile
  cases hf : s.files fileId with
  | none =>
      simp only [wp, hf]
      exact h
  | some file =>
      have hw := hm file (h.files fileId file hf)
      simp only [wp, hf] at hw ⊢
      cases hr : m file with
      | ok a t =>
          simp only [hr] at hw ⊢
          exact h.setFile fileId hw
      | error e t =>
          simp only [hr] at hw ⊢
          exact h.setFile fileId hw

theorem loadFrame_reading (h : Reading s bytes) (key : BufferKey) :
    wp (loadFrame key false) (fun _ t => Reading t bytes) (fun _ t => Reading t bytes) s := by
  unfold loadFrame readPageData installFrame
  simp only [wp_bind, wp_get, wp_ite, wp_throw, wp_modify, wp_pure]
  refine wp_mono (acquireFrame_reading h) (fun f t ht => ?_) fun _ _ => id
  refine wp_mono (withFile_reading ht key.fileId fun file hf => storeRead_clean hf _)
    (fun data t ht => ?_) fun _ _ => id
  split
  · exact ht
  · have hd := ht.modifyFrame (f := f) (c := fun frame => { frame with data }) (ht.frames f)
    have hk := hd.modifyFrame (f := f)
      (c := fun frame => { frame with key := some key, dirty := false, pinCount := 1 }) rfl
    refine Reading.touch ?_
    exact hk.of_same (fun _ => rfl) rfl

theorem getPage_reading (h : Reading s bytes) (fileId pageId : Nat) :
    wp (getPage fileId pageId) (fun _ t => Reading t bytes) (fun _ t => Reading t bytes) s := by
  unfold getPage
  simp only [wp_bind, wp_get]
  cases s.pageTable ⟨fileId, pageId⟩ with
  | some f =>
      simp only [wp_bind, wp_pure]
      exact pinFrame_reading h f
  | none =>
      simp only [wp_bind, wp_pure]
      exact loadFrame_reading h _

theorem forceFile_reading (h : Reading s bytes) (fileId : Nat) (pageId : Option Nat) :
    wp (forceFile fileId pageId) (fun _ t => Reading t bytes) (fun _ t => Reading t bytes) s := by
  unfold forceFile
  simp only [wp_bind, wp_get, wp_ite, wp_throw]
  split
  · exact h
  · have hloop : ∀ l : List (Fin cap), wp (l.forM flushFrameIfDirty)
        (fun _ t => t = s) never s := by
      intro l
      refine wp_forM (R := fun _ t => t = s) ?_ rfl
      rintro f rest _ rfl
      rw [flushFrameIfDirty_reading h]
    refine wp_mono (hloop _) ?_ fun _ _ => False.elim
    rintro _ _ rfl
    exact withFile_reading h fileId fun file hf => flush_clean hf

end Redbase.Buffer
