import Redbase.Buffer.Invariant
import Redbase.Page.Lemmas.Contents

/-!
# Page files as the pool's files

A `PageFile` that represents a store is a lawful page store; on a `PageIo` that does not fail its
calls are exact.
-/

namespace Redbase.Page

open Prog Bytes PageFile Function

variable {I : Type} [ReliableIo I] {s : PageFile I} {st : Store} {p : Nat}

theorem storeRead_spec (h : Represents s st) :
    wp (PageStore.readPage p) (fun d t => Represents t st ∧ st.view p = some d)
      (fun e t => Represents t st ∧ st.view p = none ∧ e = .invalidPageId p) s := by
  simp only [PageStore.readPage, wp_bind, wp_pure]
  refine wp_mono (readPage_spec h) ?_ ?_
  · rintro _ t ⟨ht, hu, rfl⟩
    exact ⟨ht, if_pos hu⟩
  · rintro _ t ⟨ht, hu, rfl⟩
    exact ⟨ht, if_neg hu, rfl⟩

theorem storeWrite_spec (h : Represents s st) (d : PageData) :
    wp (PageStore.writePage p d) (fun _ t => st.InUse p ∧ Represents t (st.write p d))
      (fun e t => Represents t st ∧ ¬ st.InUse p ∧ e = .invalidPageId p) s := by
  simp only [PageStore.writePage, wp_bind, wp_modify]
  refine wp_mono (writePage_spec h) ?_ fun _ _ => id
  rintro _ t ⟨ht, hg, hu, rfl⟩
  exact ⟨hu, (ht.setPageData hg d).1⟩

theorem storeAllocate_spec (h : Represents s st) :
    wp PageStore.allocatePage (fun p t => p = st.nextId ∧ Represents t st.allocate)
      (fun _ t => Represents t st ∧ st.free = [] ∧ st.numPages + 1 = 2 ^ 32) s := by
  simp only [PageStore.allocatePage, wp_bind, wp_pure]
  refine wp_mono (allocatePage_spec h) ?_ fun _ _ => id
  rintro _ t ⟨rfl, ht, -⟩
  exact ⟨rfl, ht⟩

theorem storeFlush_spec (h : Represents s st) :
    wp PageStore.flush (fun _ t => Represents t st ∧ Flushed s t) never s :=
  flush_store_spec h

/-- What a call on a page file may do to the pages in use. -/
private theorem keeps_of_store {t : PageFile I} {st' : Store} (h : Represents s st)
    (ht : Represents t st') (hu : ∀ q, st.InUse q → st'.InUse q) :
    (∃ st, Represents t st) ∧ ∀ q, s.InUse q → t.InUse q :=
  ⟨⟨st', ht⟩, fun q hq => (ht.inUse_iff q).mpr (hu q ((h.inUse_iff q).mp hq))⟩

instance : LawfulPageStore (PageFile I) where
  Valid s := ∃ st, Represents s st
  InUse := PageFile.InUse
  allocate_law := by
    rintro s ⟨st, h⟩
    refine wp_mono (storeAllocate_spec h) ?_ ?_
    · rintro _ t ⟨rfl, ht⟩
      exact ⟨keeps_of_store h ht fun q hq => (st.inUse_allocate q).mpr (Or.inr hq),
        fun hu => st.not_inUse_nextId ((h.inUse_iff _).mp hu),
        (ht.inUse_iff _).mpr ((st.inUse_allocate _).mpr (Or.inl rfl))⟩
    · rintro _ t ⟨ht, -⟩
      exact keeps_of_store h ht fun _ => id
  read_law := by
    rintro s p ⟨st, h⟩
    refine wp_mono (storeRead_spec h) ?_ ?_
    · rintro d t ⟨ht, hd⟩
      refine ⟨keeps_of_store h ht fun _ => id, (ht.inUse_iff p).mpr ((st.isSome_view p).mp ?_)⟩
      simp [hd]
    · rintro _ t ⟨ht, -⟩
      exact keeps_of_store h ht fun _ => id
  write_law := by
    rintro s p d ⟨st, h⟩
    refine wp_mono (storeWrite_spec h d) ?_ ?_
    · rintro _ t ⟨-, ht⟩
      exact keeps_of_store h ht fun _ => id
    · rintro _ t ⟨ht, -⟩
      exact keeps_of_store h ht fun _ => id
  flush_law := by
    rintro s ⟨st, h⟩
    refine wp_mono (storeFlush_spec h) ?_ fun _ _ => False.elim
    rintro _ t ⟨ht, -⟩
    exact keeps_of_store h ht fun _ => id

/-! ## Contents -/

namespace Lawful

/-- The calls of the lawful store at hand, where there may be several. -/
scoped instance (priority := 2000) calls [L : LawfulPageStore (PageFile I)] :
    PageStore (PageFile I) :=
  L.toPageStore

end Lawful

section Exact

open scoped Lawful

/-- The calls of the store are exact on the contents of a file, apart from the allocation of a
page. -/
class ExactStore (I : Type) [ReliableIo I] [LawfulPageStore (PageFile I)] : Prop where
  read_exact (file : PageFile I) (p : Nat) (h : LawfulPageStore.Valid file) :
    wp (PageStore.readPage p)
      (fun d t => (t.contents = file.contents ∧ t.header = file.header) ∧ file.contents p = some d)
      (fun e t => (t.contents = file.contents ∧ t.header = file.header) ∧ file.contents p = none ∧
        e = .invalidPageId p) file
  write_exact (file : PageFile I) (p : Nat) (d : PageData) (h : LawfulPageStore.Valid file)
    (hu : LawfulPageStore.InUse file p) :
    wp (do PageStore.writePage p d; PageStore.flush)
      (fun _ t => t.contents = update file.contents p (some d) ∧ t.header = file.header) never file

end Exact

instance : ExactStore I where
  read_exact := by
    rintro s p ⟨st, h⟩
    have hsame : ∀ t, Represents t st → t.contents = s.contents ∧ t.header = s.header := fun t ht =>
      ⟨by rw [ht.contents_eq, h.contents_eq], h.header_eq ht rfl rfl⟩
    refine wp_mono (storeRead_spec h) ?_ ?_
    · rintro d t ⟨ht, hd⟩
      exact ⟨hsame t ht, by rw [h.contents_eq, hd]⟩
    · rintro e t ⟨ht, hd, rfl⟩
      exact ⟨hsame t ht, by rw [h.contents_eq, hd], rfl⟩
  write_exact := by
    rintro s p d ⟨st, h⟩ hu
    have hu' : st.InUse p := (h.inUse_iff p).mp hu
    rw [wp_bind]
    refine wp_mono (storeWrite_spec h d) ?_ fun _ _ ht => ht.2.1 hu'
    rintro _ t ⟨-, ht⟩
    refine wp_mono (storeFlush_spec ht) ?_ fun _ _ => id
    rintro _ u ⟨hr, -⟩
    exact ⟨by rw [hr.contents_eq, h.contents_eq, st.view_write hu'], h.header_eq hr rfl rfl⟩

end Redbase.Page
