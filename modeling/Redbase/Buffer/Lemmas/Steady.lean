import Redbase.Buffer.Lemmas.Memory

/-!
# Page files that hold anything

What the pages of a file hold, and its free list, need not make sense. As a store that hands out no
page every page file is a lawful one, so what is proved of the pool's reads and writes holds of it.
-/

namespace Redbase.Page

open Prog Bytes PageFile

/-- The page files as a store that hands out no page. -/
@[reducible] def steadyStore (I : Type) [ReliableIo I] : LawfulPageStore (PageFile I) where
  allocatePage := throw (.corrupted "no page is handed out")
  readPage := PageStore.readPage
  writePage := PageStore.writePage
  flush := PageStore.flush
  Valid := Steady
  InUse := PageFile.InUse
  allocate_law s h := ⟨h, fun _ => id⟩
  read_law s p h := by
    simp only [PageStore.readPage, wp_bind, wp_pure]
    refine wp_mono (readPage_contents h p) ?_ ?_
    · rintro _ t ⟨⟨ht, hs⟩, hu, -⟩
      exact ⟨⟨ht, fun q => (hs.inUse_iff q).mpr⟩, (hs.inUse_iff p).mpr hu⟩
    · rintro _ t ⟨⟨ht, hs⟩, -⟩
      exact ⟨ht, fun q => (hs.inUse_iff q).mpr⟩
  write_law s p d h := by
    refine wp_mono (writePage_contents h p d) ?_ ?_
    · rintro _ t ⟨-, ht⟩
      exact ⟨ht.steady, fun q => (ht.inUse_iff q).mpr⟩
    · rintro _ t ⟨⟨ht, hs⟩, -⟩
      exact ⟨ht, fun q => (hs.inUse_iff q).mpr⟩
  flush_law s h := by
    refine wp_mono (flush_contents h) ?_ fun _ _ => False.elim
    rintro _ t ⟨ht, hs⟩
    exact ⟨ht, fun q => (hs.inUse_iff q).mpr⟩

instance steadyStore_exact (I : Type) [ReliableIo I] : @ExactStore I _ (steadyStore I) :=
  letI := steadyStore I
  { read_exact := by
      intro s p h
      simp only [PageStore.readPage, wp_bind, wp_pure]
      refine wp_mono (readPage_contents h p) ?_ ?_
      · rintro _ t ⟨⟨-, hs⟩, hu, hd⟩
        exact ⟨⟨hs.contents, hs.header⟩, by rw [contents_of_inUse hu, hd]⟩
      · rintro _ t ⟨⟨-, hs⟩, hu, rfl⟩
        exact ⟨⟨hs.contents, hs.header⟩, contents_of_not_inUse hu, rfl⟩
    write_exact := by
      intro s p d h hu
      rw [wp_bind]
      refine wp_mono (writePage_contents h p d) ?_ fun _ _ ht => ht.2.1 hu
      rintro _ t ⟨-, ht⟩
      refine wp_mono (flush_contents ht.steady) ?_ fun _ _ => id
      rintro _ u ⟨-, hs⟩
      exact ⟨by rw [hs.contents, ht.contents hu], hs.header.trans ht.header⟩ }

end Redbase.Page

namespace Redbase.Buffer

open Prog Bytes Page BufferPoolState

/-! ## Two stores -/

section Congr

variable {F : Type} {cap : Nat} (S S' : PageStore F)

theorem flushFrameIfDirty_congr (hw : S.writePage = S'.writePage) (hf : S.flush = S'.flush) :
    @flushFrameIfDirty F cap S = @flushFrameIfDirty F cap S' := by
  unfold flushFrameIfDirty
  rw [hw, hf]

theorem acquireFrom_congr (hw : S.writePage = S'.writePage) (hf : S.flush = S'.flush) (fuel : Nat)
    (cursor : Option (Fin cap)) :
    @acquireFrom F cap S fuel cursor = @acquireFrom F cap S' fuel cursor := by
  induction fuel generalizing cursor with
  | zero => cases cursor <;> rfl
  | succ fuel ih =>
      cases cursor with
      | none => rfl
      | some f =>
          unfold acquireFrom
          simp only [flushFrameIfDirty_congr S S' hw hf, ih]

theorem acquireFrame_congr (hw : S.writePage = S'.writePage) (hf : S.flush = S'.flush) :
    @acquireFrame F cap S = @acquireFrame F cap S' := by
  unfold acquireFrame
  simp only [acquireFrom_congr S S' hw hf]

theorem loadFrame_congr (hw : S.writePage = S'.writePage) (hf : S.flush = S'.flush)
    (hr : S.readPage = S'.readPage) :
    @loadFrame F cap S = @loadFrame F cap S' := by
  unfold loadFrame readPageData
  rw [acquireFrame_congr S S' hw hf, hr]

/-- Two stores that differ in what they allocate serve the pages alike. -/
theorem getPage_congr (hw : S.writePage = S'.writePage) (hf : S.flush = S'.flush)
    (hr : S.readPage = S'.readPage) :
    @getPage F cap S = @getPage F cap S' ∧ @getPageMut F cap S = @getPageMut F cap S' := by
  unfold getPage getPageMut
  rw [loadFrame_congr S S' hw hf hr]
  exact ⟨rfl, rfl⟩

end Congr

/-! ## The pool -/

section Pool

variable {I : Type} [ReliableIo I] {cap : Nat} {s : BufferPoolState (PageFile I) cap}
  {guards : List (Guard cap)} {mem : BufferKey → Option PageData}

/-- The invariant of the pool, for files that hold anything. -/
abbrev Settled (s : BufferPoolState (PageFile I) cap) (guards : List (Guard cap)) : Prop :=
  @Inv _ _ (steadyStore I) s guards

namespace Settled

variable {g : Guard cap}

theorem pinCount_eq (h : Settled s []) (f : Fin cap) : (s.frames f).pinCount = 0 := by
  let store := steadyStore I
  exact h.pinned.count f

theorem key_eq (h : Settled s [g]) : (s.frames g.frameId).key = some g.key := by
  let store := steadyStore I
  exact h.pinned.key g (by simp)

theorem unpin (h : Settled s [g]) : Settled (s.unpinFrame g.frameId) [] := by
  let store := steadyStore I
  have hu := unpinFrame_inv h (g := g) (by simp)
  rwa [List.erase_cons_head] at hu

/-- A write through the only guard. -/
theorem write (h : Settled s [g]) (hb : Backed s mem) (hd : (s.frames g.frameId).dirty = true)
    (data : PageData) :
    Settled (s.modifyFrame g.frameId fun frame => { frame with data }) [g] ∧
      Backed (s.modifyFrame g.frameId fun frame => { frame with data })
        (Function.update mem g.key (some data)) := by
  have hk := h.key_eq
  let store := steadyStore I
  exact ⟨h.setData, hb.write h.table hk hd⟩

end Settled

theorem settled_new : Settled (BufferPoolState.new (PageFile I) cap) [] :=
  @inv_new _ _ (steadyStore I)

theorem registerFile_settled (h : Settled s guards) (hb : Backed s mem) {file : PageFile I}
    (hf : Steady file) :
    wp (registerFile file)
      (fun i t => Settled t guards ∧
        Backed t (fun key => if key.fileId = i then file.contents key.pageId else mem key) ∧
        i = s.nextFileId ∧ t.files = Function.update s.files i (some file))
      (fun _ t => Settled t guards ∧ Backed t mem ∧ 2 ^ 32 ≤ s.nextFileId + 1) s := by
  let store := steadyStore I
  exact registerFile_backed h hb hf

theorem getPage_settled (h : Settled s guards) (hb : Backed s mem) (fileId pageId : Nat) :
    wp (getPage fileId pageId)
      (fun g t => Settled t (g :: guards) ∧ Backed t mem ∧ g.key = ⟨fileId, pageId⟩ ∧
        headers t = headers s)
      (fun e t => Settled t guards ∧ (Backed t mem ∧ headers t = headers s) ∧
        GetFails s mem ⟨fileId, pageId⟩ e) s := by
  have he : @getPage (PageFile I) cap (steadyStore I).toPageStore = getPage :=
    (getPage_congr (steadyStore I).toPageStore instPageStorePageFileOfPageIo rfl rfl rfl).1
  rw [← he]
  let store := steadyStore I
  exact getPage_backed h hb fileId pageId

theorem getPageMut_settled (h : Settled s guards) (hb : Backed s mem) (fileId pageId : Nat) :
    wp (getPageMut fileId pageId)
      (fun g t => Settled t (g :: guards) ∧ Backed t mem ∧ (g.key = ⟨fileId, pageId⟩ ∧
        (t.frames g.frameId).dirty = true) ∧ headers t = headers s)
      (fun e t => Settled t guards ∧ (Backed t mem ∧ headers t = headers s) ∧
        GetFails s mem ⟨fileId, pageId⟩ e) s := by
  have he : @getPageMut (PageFile I) cap (steadyStore I).toPageStore = getPageMut :=
    (getPage_congr (steadyStore I).toPageStore instPageStorePageFileOfPageIo rfl rfl rfl).2
  rw [← he]
  let store := steadyStore I
  exact getPageMut_backed h hb fileId pageId

end Pool

end Redbase.Buffer
