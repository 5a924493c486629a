import Redbase.Table.Lemmas.Assign

/-!
# The loops of an update and of a deletion

An update changes all of its records or none. A deletion goes through just when the links of the
pages that it frees fit.
-/

namespace Redbase.Table

open Prog Bytes Text Page Record Function

set_option linter.dupNamespace false

variable {I : Type} [ReliableIo I] {cap : Nat} {s t : Table I cap} {pages pages' : Nat → PageData}
  {chain chain' : List Nat} {h h' : RecordFileHeader} {assignments : List (String × Value)}
  {records : List Record} {expr : Option Expr} {p : Nat}

/-- No data page is refused. -/
abbrev AllReadable (h : RecordFileHeader) (pages : Nat → PageData) : Prop :=
  ∀ p, h.HasPage p → Readable h (pages p)

/-- The records are live, each is listed once. -/
structure Listed (h : RecordFileHeader) (pages : Nat → PageData) (records : List Record) :
    Prop where
  nodup : (records.map Record.rid).Nodup
  live : ∀ r ∈ records, lookup h pages r.rid = some r.data

theorem Listed.tail {r : Record} (hl : Listed h pages (r :: records)) : Listed h pages records :=
  ⟨(List.nodup_cons.mp hl.nodup).2, fun r hm => hl.live r (List.mem_cons_of_mem _ hm)⟩

/-- The other records of the list are there after the entry of the first has changed. -/
theorem Listed.step {r : Record} {entry : Option (List UInt8)} (hl : Listed h pages (r :: records))
    (he : lookup h' pages' = update (lookup h pages) r.rid entry) : Listed h' pages' records := by
  refine ⟨hl.tail.nodup, fun r' hm => ?_⟩
  have hne : r'.rid ≠ r.rid := fun hr => (List.nodup_cons.mp hl.nodup).1
    (hr ▸ List.mem_map_of_mem hm)
  rw [he, update_of_ne hne]
  exact hl.tail.live r' hm

/-! ## Updating -/

/-- What the loop of `update_where` leaves. -/
structure Updated (s t : Table I cap) (pages pages' : Nat → PageData) (chain : List Nat)
    (assignments : List (String × Value)) (records : List Record) : Prop where
  continues : Continues s t pages' chain
  header : t.file.header = s.file.header
  fileId : t.file.fileId = s.file.fileId
  readable : AllReadable t.file.header pages'
  kept : ∀ rid, rid ∉ records.map Record.rid →
    lookup t.file.header pages' rid = lookup s.file.header pages rid
  changed : ∀ r ∈ records, ∃ after, lookup t.file.header pages' r.rid = some after ∧
    Assigns s.layout assignments r.data after

theorem updateRecords_fitting (hs : TableOk s pages chain) (hr : AllReadable s.file.header pages)
    (hl : Listed s.file.header pages records) (hfit : Fitting s.layout assignments) :
    wp (Table.updateRecords assignments records)
      (fun n t => n = records.length ∧ ∃ pages',
        Updated s t pages pages' chain assignments records) never s := by
  induction records generalizing s pages with
  | nil => exact ⟨rfl, pages, ⟨hs, rfl, rfl⟩, rfl, rfl, hr, fun _ _ => rfl, by simp⟩
  | cons r rest ih =>
      have hlive := hl.live r List.mem_cons_self
      have hfresh := (List.nodup_cons.mp hl.nodup).1
      obtain ⟨values, henc⟩ := hs.encoded _ _ hlive
      have hdec : decodeRecord s.layout r = .ok ⟨values.map Value.stored⟩ := henc.decode r.rid
      rcases reencode_cases hs.compiled henc assignments
        with ⟨-, values', bytes, ha, hb, henc', hassign⟩ | ⟨hno, -⟩
      · unfold Table.updateRecords
        simp only [wp_bind, wp_get, hdec, wp_lift_ok, ha, wp_check_ok, hb, wp_liftFile, wp_pure]
        refine wp_mono (update_spec hs.holds (henc'.length.trans hs.size.symm)) ?_ ?_
        · rintro _ file ⟨pages', hh, hst, -, hhdr, hnext⟩
          have hc := hs.stepped hh hst fun data hd => ⟨values', Option.some.inj hd ▸ henc'⟩
          have hr' : AllReadable file.header pages' := fun p hp =>
            (hr p (hhdr ▸ hp)).congr (hh.wf.page p hp) (hnext p)
          refine wp_mono (ih hc.ok hr' (hl.step hst.lookup) hfit) ?_ fun _ _ => id
          rintro n t ⟨rfl, pages'', hu⟩
          refine ⟨rfl, pages'', hc.trans hu.continues, hu.header.trans hhdr,
            hu.fileId.trans hst.fileId, hu.readable,
            fun rid hm => ?_, List.forall_mem_cons.mpr ⟨⟨bytes, ?_, hassign⟩, hu.changed⟩⟩
          · rw [List.map_cons, List.mem_cons, not_or] at hm
            rw [hu.kept rid hm.2]
            show lookup file.header pages' rid = _
            rw [hst.lookup, update_of_ne hm.1]
          · rw [hu.kept _ hfresh]
            show lookup file.header pages' r.rid = _
            rw [hst.lookup, update_self]
        · rintro e file ⟨-, ⟨-, hnone⟩ | ⟨hp, hu⟩⟩
          · rw [hlive] at hnone
            cases hnone
          · exact hu (hr _ hp)
      · exact absurd hfit hno

/-- Where an assignment does not fit, the first record already fails, and nothing is changed. -/
theorem updateRecords_unfit {r : Record} (hs : TableOk s pages chain)
    (hlive : lookup s.file.header pages r.rid = some r.data) (hfit : ¬ Fitting s.layout assignments)
    (rest : List Record) :
    wp (Table.updateRecords assignments (r :: rest)) (fun _ _ => False) (fun _ t => t = s) s := by
  obtain ⟨values, henc⟩ := hs.encoded _ _ hlive
  have hdec : decodeRecord s.layout r = .ok ⟨values.map Value.stored⟩ := henc.decode r.rid
  rcases reencode_cases hs.compiled henc assignments with ⟨hfit', -⟩ | ⟨-, e, he⟩
  · exact absurd hfit' hfit
  · unfold Table.updateRecords
    simp only [wp_bind, wp_get, hdec, wp_lift_ok]
    cases ha : Table.assign s.layout (values.map Value.stored) assignments with
    | error e' => rfl
    | ok values' =>
        rw [ha] at he
        have hrow : encodeRow s.layout values' = .error e := he
        simp only [wp_check_ok, hrow]
        rfl

/-! ## Deleting -/

/-- A deletion fails that comes to a page that is refused. -/
theorem deleteRecords_refused (hs : TableOk s pages chain) (hu : Unreadable s.file.header pages p)
    (hm : ∃ r ∈ records, r.rid.pageId = p) :
    wp (Table.deleteRecords records) (fun _ _ => False)
      (fun _ t => ∃ pages' chain', Continues s t pages' chain') s := by
  induction records generalizing s pages chain with
  | nil =>
      obtain ⟨r, hr, -⟩ := hm
      cases hr
  | cons first rest ih =>
      unfold Table.deleteRecords
      simp only [wp_bind, wp_liftFile, wp_pure]
      refine wp_mono (delete_spec hs.holds) ?_ ?_
      · rintro _ file ⟨pages', chain', hh, hst, -, hfreed⟩
        have hc := hs.stepped hh hst fun data hd => by cases hd
        have hne : p ≠ first.rid.pageId := by
          rintro rfl
          exact hu.2 hfreed.readable
        have hu' : Unreadable file.header pages' p := by
          have hhas : file.header.HasPage p := by
            unfold RecordFileHeader.HasPage
            rw [hfreed.numPages]
            exact hu.1
          refine ⟨hhas, fun hr => hu.2 ⟨hs.holds.wf.page p hu.1, ?_⟩⟩
          rw [← hfreed.others p hne]
          exact hr.next_ge
        have hrest : ∃ r ∈ rest, r.rid.pageId = p := by
          obtain ⟨r, hr, hp⟩ := hm
          rcases List.mem_cons.mp hr with rfl | hr
          · exact absurd hp.symm hne
          · exact ⟨r, hr, hp⟩
        refine wp_mono (ih hc.ok hu' hrest) (fun _ _ => False.elim) ?_
        rintro _ t ⟨pages'', chain'', ht⟩
        exact ⟨pages'', chain'', hc.trans ht⟩
      · rintro _ file ⟨hk, -⟩
        have hsame : Unchanged s { s with file } pages chain := ⟨hk, rfl, rfl⟩
        exact ⟨pages, chain, hsame.continues hs⟩

/-- What the loop of `delete_where` leaves. -/
structure Removed (s t : Table I cap) (pages pages' : Nat → PageData) (chain : List Nat)
    (records : List Record) :
    Prop where
  continues : Continues s t pages' chain
  numPages : t.file.header.numPages = s.file.header.numPages
  kept : ∀ rid, rid ∉ records.map Record.rid →
    lookup t.file.header pages' rid = lookup s.file.header pages rid
  gone : ∀ r ∈ records, lookup t.file.header pages' r.rid = none

theorem Removed.cons {r : Record} {file : RecordFile I cap} {pages'' : Nat → PageData}
    {chain'' : List Nat} (hfresh : r.rid ∉ records.map Record.rid)
    (hc : Continues s { s with file } pages' chain')
    (hn : file.header.numPages = s.file.header.numPages)
    (he : lookup file.header pages' = update (lookup s.file.header pages) r.rid none)
    (hr : Removed { s with file } t pages' pages'' chain'' records) :
    Removed s t pages pages'' chain'' (r :: records) := by
  refine ⟨hc.trans hr.continues, hr.numPages.trans hn, fun rid hm => ?_,
    List.forall_mem_cons.mpr ⟨?_, hr.gone⟩⟩
  · rw [List.map_cons, List.mem_cons, not_or] at hm
    rw [hr.kept rid hm.2]
    show lookup file.header pages' rid = _
    rw [he, update_of_ne hm.1]
  · rw [hr.kept _ hfresh]
    show lookup file.header pages' r.rid = _
    rw [he, update_self]

/-- The free pages after one deletion. -/
theorem Freed.full_eq {full : Nat → Bool} (hf : Freed h h' pages pages' p) (hl : SameLayout h h')
    (hfull : ∀ q, h.HasPage q → full q = (freeCount h (pages q) == 0)) (q : Nat)
    (hq : h'.HasPage q) :
    update full p false q = (freeCount h' (pages' q) == 0) := by
  rw [hl.freeCount_eq]
  rcases eq_or_ne q p with rfl | hne
  · rw [update_self]
    exact (beq_false_of_ne (Nat.ne_of_gt hf.free)).symm
  · rw [update_of_ne hne, hf.others q hne]
    refine hfull q ?_
    unfold RecordFileHeader.HasPage at hq ⊢
    rwa [hf.numPages] at hq

/-- The loop of `delete_where` goes through just when the links fit. -/
theorem deleteRecords_exact {full : Nat → Bool} (hs : TableOk s pages chain)
    (hl : Listed s.file.header pages records)
    (hr : ∀ r ∈ records, Readable s.file.header (pages r.rid.pageId))
    (hfull : ∀ p, s.file.header.HasPage p → full p = (freeCount s.file.header (pages p) == 0)) :
    wp (Table.deleteRecords records)
      (fun n t => n = records.length ∧
        LinksFit s.file.header.firstFreePage full (records.map Record.rid) ∧
        ∃ pages' chain', Removed s t pages pages' chain' records)
      (fun _ t => ¬ LinksFit s.file.header.firstFreePage full (records.map Record.rid) ∧
        ∃ pages' chain', Continues s t pages' chain') s := by
  induction records generalizing s pages chain full with
  | nil => exact ⟨rfl, trivial, pages, chain, ⟨hs, rfl, rfl⟩, rfl, fun _ _ => rfl, by simp⟩
  | cons r rest ih =>
      have hlive := hl.live r List.mem_cons_self
      have hfresh := (List.nodup_cons.mp hl.nodup).1
      obtain ⟨hhas, -⟩ := hasPage_of_lookup hlive
      obtain ⟨hread, hrest⟩ := List.forall_mem_cons.mp hr
      rw [List.map_cons]
      unfold Table.deleteRecords
      simp only [wp_bind, wp_liftFile, wp_pure]
      refine wp_mono (delete_spec hs.holds) ?_ ?_
      · rintro _ file ⟨pages', chain', hh, hst, -, hfreed⟩
        have hc := hs.stepped hh hst fun data hd => by cases hd
        have hl' : Listed file.header pages' rest := hl.step hst.lookup
        have hfull' := Freed.full_eq hfreed hst.layout hfull
        -- the other pages of the rest can still be read
        have hothers : ∀ r' ∈ rest, r'.rid.pageId ≠ r.rid.pageId →
            Readable file.header (pages' r'.rid.pageId) :=
          fun r' hm hne => (hrest r' hm).congr (hh.wf.page _ (hasPage_of_lookup (hl'.live r' hm)).1)
            (by rw [hfreed.others _ hne])
        have finish : (LinksFit file.header.firstFreePage (update full r.rid.pageId false)
              (rest.map Record.rid) ↔
              LinksFit s.file.header.firstFreePage full (r.rid :: rest.map Record.rid)) →
            (∀ r' ∈ rest, r'.rid.pageId = r.rid.pageId →
              Readable file.header (pages' r'.rid.pageId)) →
            wp (Table.deleteRecords rest)
              (fun n t => n + 1 = (r :: rest).length ∧
                LinksFit s.file.header.firstFreePage full (r.rid :: rest.map Record.rid) ∧
                ∃ pages' chain', Removed s t pages pages' chain' (r :: rest))
              (fun _ t => ¬ LinksFit s.file.header.firstFreePage full
                (r.rid :: rest.map Record.rid) ∧
                ∃ pages' chain', Continues s t pages' chain') { s with file } := by
          intro hlinks hsame
          have hreads : ∀ r' ∈ rest, Readable file.header (pages' r'.rid.pageId) := fun r' hm =>
            (eq_or_ne r'.rid.pageId r.rid.pageId).elim (hsame r' hm) (hothers r' hm)
          refine wp_mono (ih hc.ok hl' hreads hfull') ?_ ?_
          · rintro n t ⟨rfl, hfit, pages'', chain'', hrem⟩
            exact ⟨rfl, hlinks.mp hfit, pages'', chain'',
              hrem.cons hfresh hc hfreed.numPages hst.lookup⟩
          · rintro _ t ⟨hno, pages'', chain'', ht⟩
            exact ⟨fun hfit => hno (hlinks.mpr hfit), pages'', chain'', hc.trans ht⟩
        rcases Nat.eq_zero_or_pos (freeCount s.file.header (pages r.rid.pageId)) with h0 | hpos
        · obtain ⟨hhdr, hnext⟩ := hfreed.full h0
          have hhead : file.header.firstFreePage = asI32 r.rid.pageId := by rw [hhdr]
          have hf : full r.rid.pageId = true := by
            rw [hfull _ hhas, h0]
            rfl
          by_cases hbad : s.file.header.firstFreePage < recordPageFull ∧
            ∃ r' ∈ rest, r'.rid.pageId = r.rid.pageId
          · -- the freed page is refused, and is not done yet
            obtain ⟨hlt, r', hm, hp⟩ := hbad
            have hu : Unreadable file.header pages' r.rid.pageId := by
              refine ⟨hp ▸ (hasPage_of_lookup (hl'.live r' hm)).1, fun hread => ?_⟩
              have hge := hread.next_ge
              rw [hnext] at hge
              exact absurd hlt (Int.not_lt.mpr hge)
            refine wp_mono (deleteRecords_refused hc.ok hu ⟨r', hm, hp⟩) (fun _ _ => False.elim) ?_
            rintro _ t ⟨pages'', chain'', ht⟩
            refine ⟨fun hfit => ?_, pages'', chain'', hc.trans ht⟩
            rw [LinksFit, if_pos hf] at hfit
            exact hfit.1 hlt r'.rid (List.mem_map_of_mem hm) hp
          · refine finish ?_ fun r' hm hp => ?_
            · rw [LinksFit, if_pos hf, hhead]
              refine (and_iff_right fun hlt other ho => ?_).symm
              obtain ⟨r', hm, rfl⟩ := List.mem_map.mp ho
              exact fun hp => hbad ⟨hlt, r', hm, hp⟩
            · refine ⟨hh.wf.page _ (hasPage_of_lookup (hl'.live r' hm)).1, ?_⟩
              rw [hp, hnext]
              exact Int.not_lt.mp fun hlt => hbad ⟨hlt, r', hm, hp⟩
        · obtain ⟨hhdr, hnext⟩ := hfreed.more hpos
          have hf : full r.rid.pageId = false := by
            rw [hfull _ hhas]
            exact beq_false_of_ne (Nat.ne_of_gt hpos)
          refine finish ?_ fun r' hm hp => ?_
          · rw [LinksFit, if_neg (by simp [hf]), hhdr, ← hf, update_eq_self]
          · rw [hp]
            exact hread.congr (hh.wf.page _ (hp ▸ (hasPage_of_lookup (hl'.live r' hm)).1)) hnext
      · rintro e file ⟨-, ⟨-, hnone⟩ | ⟨-, hu⟩⟩
        · rw [hlive] at hnone
          cases hnone
        · exact absurd hread hu

/-! ## The statements -/

omit [ReliableIo I] in
theorem listed_selected : Listed s.file.header pages (selected s pages expr) := by
  refine ⟨List.pairwise_map.mpr (pairwise_matching.imp fun hab he => ?_),
    fun r hr => (mem_matching.mp hr).1⟩
  rw [Rid.Before, he] at hab
  rcases hab with hlt | ⟨-, hlt⟩
  · exact Nat.lt_irrefl _ hlt
  · exact Nat.lt_irrefl _ hlt

/-- An update changes every row that it selects; when it fails it has changed nothing. -/
theorem updateWhere_exact (hs : TableOk s pages chain) (expr : Option Expr)
    (assignments : List (String × Value)) :
    wp (Table.updateWhere expr assignments)
      (fun n t => ¬ Rejected s.layout expr ∧ AllReadable s.file.header pages ∧
        n = (selected s pages expr).length ∧
        ∃ pages', Updated s t pages pages' chain assignments (selected s pages expr))
      (fun _ t => Unchanged s t pages chain ∧
        (ScanFails s pages expr ∨ selected s pages expr ≠ [] ∧
          ¬ Fitting s.layout assignments)) s := by
  unfold Table.updateWhere
  rw [wp_bind]
  refine wp_mono (collectRecords_spec hs expr) ?_ fun _ _ h => ⟨h.1, Or.inl h.2⟩
  rintro records t ⟨hu, haccept, hr, rfl⟩
  have hc := hu.continues hs
  have hl : Listed t.file.header pages (selected s pages expr) := by
    rw [hu.file.header]
    exact listed_selected
  by_cases hfit : Fitting s.layout assignments
  · refine wp_mono (updateRecords_fitting hc.ok (hu.file.header ▸ hr) hl (hu.layout ▸ hfit)) ?_
      fun _ _ => False.elim
    rintro n u ⟨rfl, pages', hup⟩
    refine ⟨haccept, hr, rfl, pages', hc.trans hup.continues, hup.header.trans hu.file.header,
      hup.fileId.trans hu.file.fileId, hup.readable, ?_, ?_⟩
    · rw [← hu.file.header]
      exact hup.kept
    · rw [← hu.layout]
      exact hup.changed
  · cases hsel : selected s pages expr with
    | nil =>
        refine ⟨haccept, hr, rfl, pages, hc, hu.file.header, hu.file.fileId, hu.file.header ▸ hr,
          fun rid _ => ?_, by simp⟩
        rw [hu.file.header]
    | cons r rest =>
        rw [hsel] at hl
        refine wp_mono (updateRecords_unfit hc.ok (hl.live r List.mem_cons_self)
            (hu.layout ▸ hfit) rest)
          (fun _ _ => False.elim) ?_
        rintro _ _ rfl
        exact ⟨hu, Or.inr ⟨List.cons_ne_nil _ _, hfit⟩⟩

/-- A deletion removes every row that it selects; it may fail on the way where the links do not
fit. -/
theorem deleteWhere_exact {full : Nat → Bool} (hs : TableOk s pages chain) (expr : Option Expr)
    (hfull : ∀ p, s.file.header.HasPage p → full p = (freeCount s.file.header (pages p) == 0)) :
    wp (Table.deleteWhere expr)
      (fun n t => ¬ Rejected s.layout expr ∧ AllReadable s.file.header pages ∧
        LinksFit s.file.header.firstFreePage full ((selected s pages expr).map Record.rid) ∧
        n = (selected s pages expr).length ∧
          ∃ pages' chain', Removed s t pages pages' chain' (selected s pages expr))
      (fun _ t => Unchanged s t pages chain ∧ ScanFails s pages expr ∨
        ¬ LinksFit s.file.header.firstFreePage full ((selected s pages expr).map Record.rid) ∧
          ∃ pages' chain', Continues s t pages' chain') s := by
  unfold Table.deleteWhere
  rw [wp_bind]
  refine wp_mono (collectRecords_spec hs expr) ?_ fun _ _ => Or.inl
  rintro records t ⟨hu, haccept, hr, rfl⟩
  have hc := hu.continues hs
  have hl : Listed t.file.header pages (selected s pages expr) := by
    rw [hu.file.header]
    exact listed_selected
  have hreads : ∀ r ∈ selected s pages expr, Readable t.file.header (pages r.rid.pageId) :=
    fun r hm => by
    rw [hu.file.header]
    exact hr _ (hasPage_of_lookup (listed_selected.live r hm)).1
  rw [← hu.file.header] at hfull
  refine wp_mono (deleteRecords_exact hc.ok hl hreads hfull) ?_ ?_
  · rintro n u ⟨rfl, hfit, pages', chain', hrem⟩
    rw [hu.file.header] at hfit
    refine ⟨haccept, hr, hfit, rfl, pages', chain', hc.trans hrem.continues, ?_, ?_, hrem.gone⟩
    · rw [hrem.numPages, hu.file.header]
    · rw [← hu.file.header]
      exact hrem.kept
  · rintro _ u ⟨hno, pages', chain', hcont⟩
    rw [hu.file.header] at hno
    exact Or.inr ⟨hno, pages', chain', hc.trans hcont⟩

/-! ## Row by row -/

/-- A row that an update selects has the assigned values, every other row is as before. -/
theorem Updated.entry (hu : Updated s t pages pages' chain assignments (selected s pages expr))
    (rid : Rid) :
    match lookup s.file.header pages rid with
    | none => lookup t.file.header pages' rid = none
    | some before =>
        if wanted s.schema s.layout expr before then
          ∃ after, lookup t.file.header pages' rid = some after ∧
            Assigns s.layout assignments before after
        else lookup t.file.header pages' rid = some before := by
  cases hl : lookup s.file.header pages rid with
  | none =>
      show lookup t.file.header pages' rid = none
      rw [hu.kept rid, hl]
      intro hm
      obtain ⟨r, hr, rfl⟩ := List.mem_map.mp hm
      rw [(mem_matching.mp hr).1] at hl
      cases hl
  | some before =>
      show if _ then _ else _
      split
      next hwant => exact hu.changed ⟨rid, before⟩ (mem_matching.mpr ⟨hl, hwant⟩)
      next hwant =>
        rw [hu.kept rid, hl]
        intro hm
        obtain ⟨r, hr, rfl⟩ := List.mem_map.mp hm
        obtain ⟨hlive, hq⟩ := mem_matching.mp hr
        rw [hl] at hlive
        cases hlive
        exact hwant hq

/-- A row that a deletion selects is gone, every other row is as before. -/
theorem Removed.entry (hr : Removed s t pages pages' chain' (selected s pages expr)) (rid : Rid) :
    lookup t.file.header pages' rid =
      (lookup s.file.header pages rid).filter fun before =>
        !wanted s.schema s.layout expr before := by
  by_cases hm : rid ∈ (selected s pages expr).map Record.rid
  · obtain ⟨r, hmem, rfl⟩ := List.mem_map.mp hm
    obtain ⟨hlive, hq⟩ := mem_matching.mp hmem
    rw [hr.gone r hmem, hlive, Option.filter_some, hq]
    rfl
  · rw [hr.kept rid hm]
    cases hl : lookup s.file.header pages rid with
    | none => rfl
    | some before =>
        have hq : wanted s.schema s.layout expr before = false := by
          by_contra hq
          exact hm (List.mem_map.mpr ⟨⟨rid, before⟩, mem_matching.mpr ⟨hl, by simpa using hq⟩, rfl⟩)
        rw [Option.filter_some, hq]
        rfl

/-! ## What is shown -/

theorem selectedRows_eq (hs : TableOk s pages chain) (expr : Option Expr) :
    selectedRows s expr = selected s pages expr := by
  have hl : lookup s.file.header (shown s.file) = lookup s.file.header pages := hs.holds.live_eq
  unfold selectedRows selected matching recordAt
  rw [hl]

theorem isFull_eq (hs : TableOk s pages chain) (p : Nat) (hp : s.file.header.HasPage p) :
    isFull s p = (freeCount s.file.header (pages p) == 0) := by
  rw [isFull, hs.holds.shown_eq hp, (hs.holds.wf.page p hp).numFree]

theorem filterAccepted_iff (hs : TableOk s pages chain)
    (hc : ∀ e, expr = some e → ∃ filter, compileExpr s.layout e = .ok filter) :
    FilterAccepted s expr ↔ ¬ Rejected s.layout expr := by
  constructor
  · rintro ha ⟨e, rfl, hno⟩
    obtain ⟨filter, hf⟩ := hc e rfl
    exact hno filter hf (hs.size ▸ ha e filter rfl hf)
  · intro hr e filter he hf
    by_contra hno
    refine hr ⟨e, he, fun filter' hf' hv => ?_⟩
    rw [hf] at hf'
    cases hf'
    exact hno (hs.size.symm ▸ hv)

theorem scanFails_iff (hs : TableOk s pages chain)
    (hc : ∀ e, expr = some e → ∃ filter, compileExpr s.layout e = .ok filter) :
    ¬ ScanFails s pages expr ↔ FilterAccepted s expr ∧ HeadersValid s.file := by
  rw [ScanFails, not_or, filterAccepted_iff hs hc, hs.holds.headersValid_iff]
  refine and_congr_right fun _ => ⟨fun hno p hp => ?_, fun hr ⟨p, hp, hu⟩ => hu (hr p hp)⟩
  by_contra hu
  exact hno ⟨p, hp, hu⟩

theorem updatesExactly_iff (hs : TableOk s pages chain)
    (hc : ∀ e, expr = some e → ∃ filter, compileExpr s.layout e = .ok filter)
    (ha : Assignable s.layout assignments) :
    UpdatesExactly s expr assignments ↔ FilterAccepted s expr ∧ HeadersValid s.file := by
  have hw := updateWhere_exact hs expr assignments
  rw [← scanFails_iff hs hc]
  constructor
  · rintro ⟨t, ht, -⟩
    obtain ⟨haccept, hr, -⟩ := wp_ok ht hw
    rintro (hrej | ⟨p, hp, hu⟩)
    · exact haccept hrej
    · exact hu (hr p hp)
  · intro hno
    obtain ⟨n, t, ht, -, hr, rfl, pages', hup⟩ :=
      exists_ok_of_wp (wp_mono hw (fun _ _ => id) fun _ _ hbad => by
      rcases hbad.2 with hf | ⟨-, hf⟩
      · exact hno hf
      · exact hf (ha.fitting hs.compiled))
    refine ⟨t, by rw [selectedRows_eq hs]; exact ht, fun rid => ?_⟩
    rw [hs.holds.live_eq, hup.continues.ok.holds.live_eq]
    exact hup.entry rid

theorem deletesExactly_iff (hs : TableOk s pages chain)
    (hc : ∀ e, expr = some e → ∃ filter, compileExpr s.layout e = .ok filter) :
    DeletesExactly s expr ↔ FilterAccepted s expr ∧ HeadersValid s.file ∧
      LinksFit s.file.header.firstFreePage (isFull s) ((selectedRows s expr).map Record.rid) := by
  have hw := deleteWhere_exact hs expr (isFull_eq hs)
  rw [← and_assoc, ← scanFails_iff hs hc, selectedRows_eq hs]
  constructor
  · rintro ⟨t, ht, -⟩
    obtain ⟨haccept, hr, hfit, -⟩ := wp_ok ht hw
    refine ⟨?_, hfit⟩
    rintro (hrej | ⟨p, hp, hu⟩)
    · exact haccept hrej
    · exact hu (hr p hp)
  · rintro ⟨hno, hfit⟩
    obtain ⟨n, t, ht, -, -, -, rfl, pages', chain', hrem⟩ := exists_ok_of_wp
      (wp_mono hw (fun _ _ => id) fun _ _ hbad => by
        rcases hbad with ⟨-, hf⟩ | ⟨hf, -⟩
        · exact hno hf
        · exact hf hfit)
    refine ⟨t, by rw [selectedRows_eq hs]; exact ht, fun rid => ?_⟩
    rw [hs.holds.live_eq, hrem.continues.ok.holds.live_eq]
    exact hrem.entry rid

end Redbase.Table
