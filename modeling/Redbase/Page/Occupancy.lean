import Mathlib.Data.Finset.Card
import Redbase.Page.Lemmas.Simulation

/-!
# How many pages a file has

A page is added only where every page is in use, so the file has as many pages as were in use at
once.
-/

namespace Redbase.Page

open Prog Bytes PageFile

/-- The pages in use after a history. -/
def livePages : List (Op × Reply) → Finset Nat
  | [] => ∅
  | (.allocate _, .allocated p _) :: h => insert p (livePages h)
  | (.dispose p, .done) :: h => (livePages h).erase p
  | _ :: h => livePages h

/-- The largest number of pages that were in use at once. -/
def peakPages : List (Op × Reply) → Nat
  | [] => 0
  | e :: h => max (peakPages h) (livePages (e :: h)).card

variable {h : List (Op × Reply)} {st : Store}

namespace Store

/-- The pages in use. -/
def pages (st : Store) : Finset Nat := Finset.range st.numPages \ st.free.toFinset

@[simp] theorem mem_pages {p : Nat} : p ∈ st.pages ↔ st.InUse p := by
  simp [pages, InUse]

theorem card_pages (st : Store) : st.pages.card + st.free.length = st.numPages := by
  have hsub : st.free.toFinset ⊆ Finset.range st.numPages := by
    intro p hp
    simpa using st.free_lt p (by simpa using hp)
  have hcard := Finset.card_sdiff_add_card_eq_card hsub
  rw [List.toFinset_card_of_nodup st.free_nodup, Finset.card_range] at hcard
  exact hcard

theorem card_pages_le (st : Store) : st.pages.card ≤ st.numPages :=
  (Nat.le_add_right _ _).trans_eq st.card_pages

theorem pages_allocate (st : Store) : st.allocate.pages = insert st.nextId st.pages := by
  ext q
  simp [inUse_allocate]

theorem pages_dispose {p : Nat} (hu : st.InUse p) : (st.dispose p hu).pages = st.pages.erase p := by
  ext q
  simp [inUse_dispose, and_comm]

/-- A store that has the pages of its history, and no more of them than were in use at once. -/
structure Tight (st : Store) (h : List (Op × Reply)) : Prop where
  live : livePages h = st.pages
  peak : peakPages h = st.numPages

theorem tight_empty : Tight empty [] := ⟨rfl, rfl⟩

theorem Tight.next {st' : Store} {e : Op × Reply} (ht : Tight st h)
    (hlive : livePages (e :: h) = st'.pages) (hn : st'.numPages = max st.numPages st'.pages.card) :
    Tight st' (e :: h) := by
  refine ⟨hlive, ?_⟩
  rw [peakPages, hlive, ht.peak, hn]

/-- An operation that adds no page. -/
theorem Tight.keep {st' : Store} {e : Op × Reply} (ht : Tight st h)
    (hlive : livePages (e :: h) = st'.pages) (hn : st'.numPages = st.numPages) :
    Tight st' (e :: h) := by
  apply ht.next hlive
  rw [hn, Nat.max_eq_left]
  rw [← hn]
  exact st'.card_pages_le

/-- A page is added where all are in use. -/
theorem numPages_allocate (st : Store) :
    st.allocate.numPages = max st.numPages st.allocate.pages.card := by
  have hcard := st.allocate.card_pages
  cases hfree : st.free with
  | nil =>
      have hnum : st.allocate.numPages = st.numPages + 1 := by simp [hfree]
      rw [allocate_free, hfree, List.tail_nil, List.length_nil, Nat.add_zero, hnum] at hcard
      rw [hcard, hnum]
      omega
  | cons p free =>
      have hnum : st.allocate.numPages = st.numPages := by simp [hfree]
      rw [hnum] at hcard ⊢
      omega

theorem Tight.step (ht : Tight st h) (op : Op) :
    Tight (st.step op).1 ((op, (st.step op).2) :: h) := by
  cases op with
  | allocate change =>
      apply ht.next
      · exact (congrArg _ ht.live).trans st.pages_allocate.symm
      · exact st.numPages_allocate
  | read p => exact ht.keep ht.live rfl
  | write p change =>
      by_cases hu : st.InUse p
      · simp only [Store.step, if_pos hu]
        exact ht.keep ht.live rfl
      · simp only [Store.step, if_neg hu]
        exact ht.keep ht.live rfl
  | dispose p =>
      by_cases hu : st.InUse p
      · simp only [Store.step, dif_pos hu]
        refine ht.keep ?_ rfl
        rw [livePages, ht.live, pages_dispose]
      · simp only [Store.step, dif_neg hu]
        split
        all_goals exact ht.keep ht.live rfl
  | flush => exact ht.keep ht.live rfl
  | reopen => exact ht.keep ht.live rfl

end Store

variable {I : Type} [ReliableIo I] {io : I} {s : PageFile I}

theorem Run.exists_tight (hr : Run io h s) :
    ∃ st, Represents s st ∧ st.Tight h ∧ s.header.numPages ≤ 2 ^ 31 := by
  induction hr with
  | create hs =>
      obtain ⟨s', hs', hrep⟩ := create_spec io
      cases hs.symm.trans hs'
      exact ⟨Store.empty, hrep, Store.tight_empty, by rw [hrep.numPages]; decide⟩
  | step op _ hle ih =>
      obtain ⟨st, hrep, ht, hle'⟩ := ih
      obtain ⟨hrep', hreply⟩ := step_represents hrep op (hrep.numPages ▸ hle')
      refine ⟨(st.step op).1, hrep', ?_, hle⟩
      rw [hreply]
      exact ht.step op

/-- The file has as many pages as were in use at once. -/
theorem run_tight (hr : Run io h s) :
    s.header.numPages = peakPages h ∧ ∀ p, p ∈ livePages h ↔ s.InUse p := by
  obtain ⟨st, hrep, ht, -⟩ := hr.exists_tight
  refine ⟨hrep.numPages.trans ht.peak.symm, fun p => ?_⟩
  rw [ht.live, Store.mem_pages, hrep.inUse_iff]

/-- A page is handed out, disposed of and handed out again. -/
theorem run_tight_recycled :
    ∃ (h : List (Op × Reply)) (s : PageFile DiskPageIo), Run ⟨[]⟩ h s ∧ h.length = 3 ∧
      s.header.numPages = 1 ∧ s.InUse 0 := by
  obtain ⟨s, hs, hrep⟩ := create_spec (DiskPageIo.mk [])
  obtain ⟨h₁, r₁⟩ := step_represents hrep (.allocate id) (by decide)
  have run₁ := (Run.create hs).step (.allocate id) (by rw [h₁.numPages]; decide)
  obtain ⟨h₂, r₂⟩ := step_represents h₁ (.dispose 0) (by decide)
  have run₂ := run₁.step (.dispose 0) (by rw [h₂.numPages]; decide)
  obtain ⟨h₃, r₃⟩ := step_represents h₂ (.allocate id) (by decide)
  have run₃ := run₂.step (.allocate id) (by rw [h₃.numPages]; decide)
  obtain ⟨hn, hlive⟩ := run_tight run₃
  rw [r₁, r₂, r₃] at hn hlive
  exact ⟨_, _, run₃, rfl, hn, (hlive 0).mp (by decide)⟩

end Redbase.Page
