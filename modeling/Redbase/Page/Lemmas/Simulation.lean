import Redbase.Page.Run
import Redbase.Page.Lemmas.Refinement

/-!
# Every run simulates the store
-/

namespace Redbase.Page

open Prog Bytes PageFile ByteIo

variable {I : Type} [ReliableIo I] {s : PageFile I} {st : Store}

theorem guardReply_eq {m : EStateM PageStoreError (PageFile I) PageGuard} {g : PageGuard}
    {st' : Store} (change : PageData → PageData) (reply : PageGuard → Reply)
    (hm : wp m (fun g' t => g' = g ∧ Represents t st' ∧ Guarded t g.pageId) never s) :
    Represents (guardReply change reply (m s)).1 (st'.write g.pageId (change g.data)) ∧
      (guardReply change reply (m s)).2 = reply g := by
  obtain ⟨_, t, he, rfl, hr, hg⟩ := exists_ok_of_wp hm
  rw [he]
  exact ⟨(hr.setPageData hg _).1, rfl⟩

/-- A file with at most `2 ^ 31` pages after the step answers as the store does. -/
theorem step_represents (h : Represents s st) (op : Op) (hs : st.numPages ≤ 2 ^ 31) :
    Represents (step s op).1 (st.step op).1 ∧ (step s op).2 = (st.step op).2 := by
  cases op with
  | allocate change =>
      refine guardReply_eq (g := ⟨st.nextId, Block.zero _⟩) change _ ?_
      refine wp_mono (allocatePage_spec h) (fun _ _ h => h) fun _ _ ht => ?_
      have := ht.2.2
      omega
  | read p =>
      by_cases hu : st.InUse p
      · have hw := wp_mono (readPage_spec (p := p) h) (fun _ _ => id)
          (fun _ _ ht => (ht.2.1 hu : never _ _))
        obtain ⟨g, t, he, hr, _, rfl⟩ := exists_ok_of_wp hw
        simp only [step, Store.step, he, if_pos hu]
        exact ⟨hr, trivial⟩
      · have hw := wp_mono (readPage_spec (p := p) h) (fun _ _ ht => hu ht.2.1) (fun _ _ => id)
        obtain ⟨e, t, he, hr, _, rfl⟩ := exists_error_of_wp hw
        simp only [step, Store.step, he, if_neg hu]
        exact ⟨hr, trivial⟩
  | write p change =>
      by_cases hu : st.InUse p
      · simp only [step, Store.step, if_pos hu]
        refine guardReply_eq (g := ⟨p, st.data p⟩) change _ ?_
        exact wp_mono (writePage_spec h) (fun _ _ ht => ⟨ht.2.2.2, ht.1, ht.2.1⟩)
          fun _ _ ht => ht.2.1 hu
      · have hw := wp_mono (writePage_spec (p := p) h) (fun _ _ ht => hu ht.2.2.1) (fun _ _ => id)
        obtain ⟨e, t, he, hr, _, rfl⟩ := exists_error_of_wp hw
        simp only [step, Store.step, guardReply, he, if_neg hu]
        exact ⟨hr, trivial⟩
  | dispose p =>
      have hspec := disposePage_spec (p := p) h fun hp => Nat.lt_of_lt_of_le hp hs
      by_cases hu : st.InUse p
      · have hw : wp (disposePage p) (fun _ t => ∃ hu, Represents t (st.dispose p hu)) never s := by
          refine wp_mono hspec (fun _ _ => id) fun e t ht => ?_
          rcases ht.2 with ⟨_, hf, _⟩ | ⟨hge, _⟩
          · exact hu.2 hf
          · exact Nat.not_le.mpr hu.1 hge
        obtain ⟨_, t, he, _, hr⟩ := exists_ok_of_wp hw
        simp only [step, Store.step, unitReply, he, dif_pos hu]
        exact ⟨hr, trivial⟩
      · have hw := wp_mono hspec (fun _ _ ht => hu ht.fst) (fun _ _ => id)
        obtain ⟨e, t, he, hr, hc⟩ := exists_error_of_wp hw
        simp only [step, Store.step, unitReply, he, dif_neg hu]
        refine ⟨hr, ?_⟩
        rcases hc with ⟨hp, _, rfl⟩ | ⟨hp, rfl⟩
        · rw [if_pos hp]
        · rw [if_neg (Nat.not_lt.mpr hp)]
  | flush =>
      obtain ⟨_, t, he, hr, _⟩ := exists_ok_of_wp (flush_store_spec h)
      simp only [step, Store.step, unitReply, he]
      exact ⟨hr, trivial⟩
  | reopen =>
      obtain ⟨_, t, he, _, hf⟩ := exists_ok_of_wp (flush_store_spec h)
      have hd : s.drop = t.io := by rw [drop, he]; rfl
      obtain ⟨u, _, ho, hu⟩ :=
        exists_ok_of_wp (open_spec h hf (show ByteIo.content s.drop = _ by rw [hd]))
      simp only [step, Store.step, ho]
      exact ⟨hu, trivial⟩

/-- After every run there is a store that the file represents and the history records. -/
theorem Run.exists_store {io : I} {h : List (Op × Reply)} (hr : Run io h s) :
    ∃ st, Represents s st ∧ st.Recorded h ∧ st.numPages ≤ 2 ^ 31 := by
  induction hr with
  | create hc =>
      obtain ⟨s', he, hs⟩ := create_spec io
      rw [he] at hc
      cases hc
      exact ⟨Store.empty, hs, Store.recorded_empty, by simp [Store.empty]⟩
  | step op _ hb ih =>
      obtain ⟨st, hs, hrec, hle⟩ := ih
      obtain ⟨hs', hreply⟩ := step_represents hs op hle
      exact ⟨(st.step op).1, hs', hreply ▸ hrec.step op, hs'.numPages ▸ hb⟩

end Redbase.Page
