import Redbase.Table.Lemmas.Links

/-!
# When a method of a table returns

In a table whose pages can all be read, and with room for one more, it returns unless what it is
asked is wrong.
-/

namespace Redbase.Table

open Prog Bytes Page Record

variable {I : Type} [ReliableIo I] {cap : Nat} {s t : Table I cap} {pages : Nat → PageData}
  {chain : List Nat}

/-- A scan that returns has accepted its filter. -/
theorem scan_accepts (hs : TableOk s pages chain) (expr : Option Expr) :
    wp (Table.scan expr) (fun _ _ => ¬ Rejected s.layout expr) (fun _ _ => True) s := by
  unfold Table.scan
  rw [wp_bind]
  refine wp_mono (scanPredicate_spec hs expr) ?_ fun _ _ _ => trivial
  rintro predicate _ ⟨-, haccept, -⟩
  exact wp_mono (wp_true _ _) (fun _ _ _ => haccept) fun _ _ _ => trivial

theorem insert_returnsIff (hs : TableOk s pages chain) (hr : AllReadable s.file.header pages)
    (hn : s.file.header.numPages + 2 < 2 ^ 32) (values : List Value) :
    ReturnsIff (Table.insert values) (∃ bytes, encodeRow s.layout values = .ok bytes) s := by
  unfold ReturnsIff Table.insert
  simp only [wp_bind, wp_get]
  cases he : encodeRow s.layout values with
  | error e =>
      rintro ⟨bytes, hb⟩
      cases hb
  | ok bytes =>
      have hlen := (encodeRow_encodes hs.compiled he).length.trans hs.size.symm
      simp only [wp_check_ok, wp_liftFile]
      refine wp_mono (Record.insert_spec hs.holds hlen) (fun _ _ _ => ⟨bytes, rfl⟩) ?_
      rintro _ _ ⟨-, hfull | ⟨p, hp, hno⟩⟩
      · exact absurd hfull (Nat.ne_of_lt hn)
      · exact absurd (hr p hp) hno

theorem updateWhere_returnsIff (hs : TableOk s pages chain) (hr : AllReadable s.file.header pages)
    (expr : Option Expr) (assignments : List (String × Value)) :
    ReturnsIff (Table.updateWhere expr assignments)
      (¬ Rejected s.layout expr ∧
        (selected s pages expr ≠ [] → Fitting s.layout assignments)) s := by
  unfold ReturnsIff Table.updateWhere
  rw [wp_bind]
  refine wp_mono (collectRecords_spec hs expr) ?_ ?_
  · rintro records t ⟨hu, haccept, -, rfl⟩
    have ht := hs.unchanged hu
    have hlisted : Listed t.file.header pages (selected s pages expr) :=
      hu.file.header ▸ listed_selected
    cases hsel : selected s pages expr with
    | nil => exact ⟨haccept, fun hne => absurd rfl hne⟩
    | cons r rest =>
        rw [hsel] at hlisted
        by_cases hfit : Fitting t.layout assignments
        · refine wp_mono (updateRecords_fitting ht (hu.file.header ▸ hr) hlisted hfit)
            (fun _ _ _ => ?_) fun _ _ => False.elim
          exact ⟨haccept, fun _ => hu.layout ▸ hfit⟩
        · refine wp_mono (updateRecords_unfit ht (hlisted.live r List.mem_cons_self) hfit rest)
            (fun _ _ => False.elim) ?_
          rintro _ _ - ⟨-, hfit'⟩
          exact hfit (hu.layout ▸ hfit' (List.cons_ne_nil r rest))
  · rintro _ t ⟨-, hrejected | ⟨p, hp, hno⟩⟩
    · exact fun h => h.1 hrejected
    · exact absurd (hr p hp) hno

theorem deleteWhere_returnsIff (hs : TableOk s pages chain) (hn : s.file.header.numPages < 2 ^ 31)
    (expr : Option Expr) :
    ReturnsIff (Table.deleteWhere expr) (¬ Rejected s.layout expr) s := by
  have hsmall : Small chain := fun p hp => (hs.holds.wf.mem_hasPage hp).2.trans_lt hn
  have hvalid := hs.holds.wf.valid hsmall
  refine wp_mono (deleteWhere_exact hs expr (isFull_eq hs)) (fun _ _ h => h.1) ?_
  rintro _ t (⟨-, hrejected | ⟨p, hp, hno⟩⟩ | ⟨hno, -⟩)
  · exact not_not.mpr hrejected
  · exact absurd (hs.holds.wf.readable hsmall hp) hno
  · refine absurd (linksFit_of_small ?_ fun rid hm => ?_) hno
    · exact Int.le_trans (by decide : recordPageFull ≤ recordPageListEnd) hvalid.end_le
    · obtain ⟨r, hr, rfl⟩ := List.mem_map.mp hm
      obtain ⟨hp, -⟩ := hasPage_of_lookup (mem_matching.mp hr).1
      exact hp.2.trans_lt hn

end Redbase.Table
