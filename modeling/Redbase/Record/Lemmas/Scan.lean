import Redbase.Record.Lemmas.Methods

/-!
# Scans

A scan yields the live records that its predicate accepts, in the order of their ids.
-/

namespace Redbase.Record

open Prog Bytes Page Buffer BufferPoolState Function RecordFile RecordScan

variable {I : Type} [ReliableIo I] {cap k : Nat} {sc : RecordScan I cap} {s : RecordFile I cap}
  {pages : Nat → PageData} {chain : List Nat} {h : RecordFileHeader} {q : List UInt8 → Bool}

/-- The `k`-th id in the order of a scan. -/
def ridAt (h : RecordFileHeader) (k : Nat) : Rid := ⟨k / h.slotsPerPage + 1, k % h.slotsPerPage⟩

/-- The number of slots of the file. -/
def RecordFileHeader.total (h : RecordFileHeader) : Nat := h.numPages * h.slotsPerPage

def recordAt (h : RecordFileHeader) (pages : Nat → PageData) (k : Nat) : Option Record :=
  (lookup h pages (ridAt h k)).map fun data => ⟨ridAt h k, data⟩

/-- The live records from position `k` on, those that `q` accepts. -/
def matching (h : RecordFileHeader) (pages : Nat → PageData) (q : List UInt8 → Bool) (k : Nat) :
    List Record :=
  ((List.range' k (h.total - k)).filterMap (recordAt h pages)).filter fun r => q r.data

/-- The live records, in order. -/
abbrev records (h : RecordFileHeader) (pages : Nat → PageData) : List Record :=
  matching h pages (fun _ => true) 0

theorem ridAt_hasPage (hf : h.Fits) (hk : k < h.total) : h.HasPage (ridAt h k).pageId :=
  ⟨Nat.succ_pos _, Nat.succ_le_of_lt ((Nat.div_lt_iff_lt_mul hf.slots_pos).mpr hk)⟩

theorem ridAt_slot_lt (hf : h.Fits) (k : Nat) : (ridAt h k).slotId < h.slotsPerPage :=
  Nat.mod_lt _ hf.slots_pos

/-! ## One turn -/

/-- The cursor stands at position `k`. -/
structure At (sc : RecordScan I cap) (k : Nat) : Prop where
  page : sc.nextPageId = k / sc.file.header.slotsPerPage + 1
  slot : sc.nextSlotId = k % sc.file.header.slotsPerPage

omit [ReliableIo I] in
theorem advanceCursor_file (sc : RecordScan I cap) :
    sc.advanceCursor.file = sc.file ∧ sc.advanceCursor.predicate = sc.predicate := by
  unfold advanceCursor
  split <;> exact ⟨rfl, rfl⟩

omit [ReliableIo I] in
theorem At.advance (ha : At sc k) (hf : sc.file.header.Fits) : At sc.advanceCursor (k + 1) := by
  have hpos := hf.slots_pos
  have hdiv := Nat.mod_add_div k sc.file.header.slotsPerPage
  have hlt := Nat.mod_lt k hpos
  unfold advanceCursor
  split
  next hs =>
    rw [ha.slot] at hs
    obtain ⟨hd, hm⟩ := (Nat.div_mod_unique hpos).mpr
      ⟨show k % sc.file.header.slotsPerPage + 1 + sc.file.header.slotsPerPage *
        (k / sc.file.header.slotsPerPage) = k + 1 by omega, hs⟩
    refine ⟨?_, ?_⟩
    · rw [hd]
      exact ha.page
    · rw [hm]
      exact congrArg (· + 1) ha.slot
  next hs =>
    rw [ha.slot] at hs
    obtain ⟨hd, hm⟩ := (Nat.div_mod_unique hpos).mpr
      ⟨show 0 + sc.file.header.slotsPerPage * (k / sc.file.header.slotsPerPage + 1) = k + 1 by
        rw [Nat.mul_succ]; omega, hpos⟩
    refine ⟨?_, hm.symm⟩
    rw [hd]
    exact congrArg (· + 1) ha.page

omit [ReliableIo I] in
/-- The loop goes on just while there are positions left. -/
theorem At.lt_total_iff (ha : At sc k) (hf : sc.file.header.Fits) :
    ¬ sc.nextPageId > sc.file.header.numPages ↔ k < sc.file.header.total := by
  rw [ha.page, RecordFileHeader.total, ← Nat.div_lt_iff_lt_mul hf.slots_pos]
  omega

omit [ReliableIo I] in
/-- The turns that `next_record` gives its loop are enough. -/
theorem At.fuel (ha : At sc k) (hk : k ≤ sc.file.header.total) :
    sc.file.header.total <
      (sc.file.header.numPages + 1 - sc.nextPageId) * sc.file.header.slotsPerPage + 1 + k := by
  have hle := Nat.div_mul_le_self k sc.file.header.slotsPerPage
  have hlt := Nat.le_trans hle hk
  rw [RecordFileHeader.total] at hlt ⊢
  rw [ha.page, Nat.add_sub_add_right, Nat.sub_mul]
  omega

omit [ReliableIo I] in
theorem At.of_file {t : RecordScan I cap} (ha : At sc k) (hp : t.nextPageId = sc.nextPageId)
    (hn : t.nextSlotId = sc.nextSlotId) (hh : t.file.header = sc.file.header) : At t k :=
  ⟨by rw [hp, hh]; exact ha.page, by rw [hn, hh]; exact ha.slot⟩

/-! ## The loop -/

section Reads

variable {predicate : List UInt8 → Except RecordError Bool} {P : RecordFile I cap → Prop}
  {E : Stop RecordError → RecordFile I cap → Prop} {entry : Nat → Option Record} {R : Nat → Prop}

/-- What a scan relies on in the states `P`: position `k` shows `entry k`, and the predicate answers
with `q`. A position that was read has `R`; what fails leaves `E`. -/
structure Reads (predicate : List UInt8 → Except RecordError Bool) (h : RecordFileHeader)
    (P : RecordFile I cap → Prop) (E : Stop RecordError → RecordFile I cap → Prop)
    (entry : Nat → Option Record) (q : List UInt8 → Bool) (R : Nat → Prop) : Prop where
  fits : h.Fits
  header : ∀ s, P s → s.header = h
  read : ∀ s k, P s → k < h.total →
    wp (readRecordIfUsed (ridAt h k)) (fun r t => P t ∧ r = entry k ∧ R k) E s
  accepts : ∀ s k r, P s → entry k = some r →
    outcome (predicate r.data) (fun b => b = q r.data) fun e => E (.error e) s

/-- The records that the positions from `k` on show, those that `q` accepts. -/
def showing (h : RecordFileHeader) (entry : Nat → Option Record) (q : List UInt8 → Bool) (k : Nat) :
    List Record :=
  ((List.range' k (h.total - k)).filterMap entry).filter fun r => q r.data

theorem showing_end (hk : h.total ≤ k) : showing h entry q k = [] := by
  rw [showing, Nat.sub_eq_zero_of_le hk]
  rfl

theorem showing_of_none (hk : k < h.total) (he : entry k = none) :
    showing h entry q k = showing h entry q (k + 1) := by
  unfold showing
  rw [show h.total - k = h.total - (k + 1) + 1 by omega, List.range'_succ, List.filterMap_cons, he]

theorem showing_of_some (hk : k < h.total) {r : Record} (he : entry k = some r) :
    showing h entry q k = if q r.data then r :: showing h entry q (k + 1) else showing h entry
      q (k + 1) := by
  unfold showing
  rw [show h.total - k = h.total - (k + 1) + 1 by omega, List.range'_succ, List.filterMap_cons, he]
  exact List.filter_cons

/-- The positions from `k` up to `k'` have `R`. -/
def Through (R : Nat → Prop) (k k' : Nat) : Prop := ∀ j, k ≤ j → j < k' → R j

theorem Through.trans {k' k'' : Nat} (h₁ : Through R k k') (h₂ : Through R k' k'') :
    Through R k k'' :=
  fun j hj hj'' => (Nat.lt_or_ge j k').elim (h₁ j hj) fun hge => h₂ j hge hj''

theorem Through.one (hr : R k) : Through R k (k + 1) := by
  intro j hj hj'
  obtain rfl : j = k := by omega
  exact hr

/-- Where the scan stands after it found a record, or nothing more. -/
def Shows (h : RecordFileHeader) (entry : Nat → Option Record) (q : List UInt8 → Bool)
    (R : Nat → Prop) (k : Nat) (t : RecordScan I cap) : Option Record → Prop
  | none => showing h entry q k = [] ∧ Through R k h.total
  | some r => ∃ k', k < k' ∧ k' ≤ h.total ∧ At t k' ∧ Through R k k' ∧
      showing h entry q k = r :: showing h entry q k'

omit [ReliableIo I] in
/-- A position that yields nothing. -/
theorem Shows.skip {t : RecordScan I cap} {r : Option Record} (hs : Shows h entry q R (k + 1) t r)
    (hr : R k) (he : showing h entry q k = showing h entry q (k + 1)) :
    Shows h entry q R k t r := by
  cases r with
  | none => exact ⟨he.trans hs.1, (Through.one hr).trans hs.2⟩
  | some r =>
      obtain ⟨k', hk', hle, hat, hread, hrest⟩ := hs
      exact ⟨k', by omega, hle, hat, (Through.one hr).trans hread, he.trans hrest⟩

theorem nextFrom_reads {fuel : Nat} (hr : Reads sc.predicate h P E entry q R) (hp : P sc.file)
    (ha : At sc k) (hk : k ≤ h.total) (hfuel : h.total < fuel + k) :
    wp (nextFrom fuel)
      (fun r t => P t.file ∧ t.predicate = sc.predicate ∧ Shows h entry q R k t r)
      (fun e t => E e t.file) sc := by
  induction fuel generalizing k sc with
  | zero => omega
  | succ fuel ih =>
      have hhdr := hr.header _ hp
      have hf : sc.file.header.Fits := hhdr ▸ hr.fits
      have hlt := ha.lt_total_iff hf
      rw [hhdr] at hlt
      obtain ⟨hfile, hpred⟩ := advanceCursor_file sc
      have hrid : (⟨sc.nextPageId, sc.nextSlotId⟩ : Rid) = ridAt h k := by
        rw [ridAt, ha.page, ha.slot, hhdr]
      unfold nextFrom
      simp only [wp_bind, wp_get, wp_ite, wp_pure, hhdr]
      split
      next hend =>
        have hend : h.total ≤ k := Nat.not_lt.mp fun hk => hlt.mpr hk hend
        exact ⟨hp, trivial, showing_end hend, fun j hj hj' => absurd hj' (by omega)⟩
      next hmore =>
        have hkt := hlt.mp hmore
        simp only [wp_modify, wp_zoom, hfile, hrid]
        refine wp_mono (hr.read _ k hp hkt) ?_ fun _ _ he => he
        rintro _ file ⟨hp', rfl, hR⟩
        have ha' : At { sc.advanceCursor with file := file } (k + 1) := by
          refine (ha.advance hf).of_file rfl rfl ?_
          exact (hr.header _ hp').trans (hhdr.symm.trans (congrArg RecordFile.header hfile).symm)
        -- the loop goes on with the next position
        have hgo : showing h entry q k = showing h entry q (k + 1) →
            wp (nextFrom fuel) (fun r t => P t.file ∧ t.predicate = sc.predicate ∧
                Shows h entry q R k t r)
              (fun e t => E e t.file) { sc.advanceCursor with file := file } := by
          intro he
          have hr' : Reads sc.advanceCursor.predicate h P E entry q R := hpred.symm ▸ hr
          refine wp_mono (ih hr' hp' ha' hkt (by omega)) ?_ fun _ _ => id
          rintro r t ⟨ht, htp, hs⟩
          exact ⟨ht, htp.trans hpred, hs.skip hR he⟩
        cases hrec : entry k with
        | none => exact hgo (showing_of_none hkt hrec)
        | some r =>
            have hstep : showing h entry q k = _ := showing_of_some hkt hrec
            have haccept := hr.accepts _ k r hp' hrec
            simp only [wp_bind]
            cases hx : sc.predicate r.data with
            | error e =>
                rw [hx] at haccept
                exact haccept
            | ok b =>
                rw [hx] at haccept
                obtain rfl : b = q r.data := haccept
                simp only [Except.mapError, wp_lift_ok, wp_ite, wp_pure]
                split
                next hq =>
                  rw [if_pos hq] at hstep
                  exact ⟨hp', hpred, k + 1, Nat.lt_succ_self k, hkt, ha', Through.one hR, hstep⟩
                next hq =>
                  rw [if_neg hq] at hstep
                  exact hgo hstep

theorem nextRecord_reads (hr : Reads sc.predicate h P E entry q R) (hp : P sc.file) (ha : At sc k)
    (hk : k ≤ h.total) :
    wp nextRecord (fun r t => P t.file ∧ t.predicate = sc.predicate ∧ Shows h entry q R k t r)
      (fun e t => E e t.file) sc := by
  have hhdr := hr.header _ hp
  unfold nextRecord
  simp only [wp_bind, wp_get]
  refine nextFrom_reads hr hp ha hk ?_
  have hfuel := ha.fuel (hhdr.symm ▸ hk)
  rwa [hhdr] at hfuel ⊢

theorem drain_reads {fuel : Nat} (hr : Reads sc.predicate h P E entry q R) (hp : P sc.file)
    (ha : At sc k) (hk : k ≤ h.total) (hfuel : h.total < fuel + k) :
    wp (drain fuel) (fun l t => P t.file ∧ Through R k h.total ∧ l = showing h entry q k)
      (fun e t => E e t.file) sc := by
  induction fuel generalizing k sc with
  | zero => omega
  | succ fuel ih =>
      unfold drain
      simp only [wp_bind]
      refine wp_mono (nextRecord_reads hr hp ha hk) ?_ fun _ _ => id
      rintro r t ⟨ht, htp, hs⟩
      cases r with
      | none => exact ⟨ht, hs.2, hs.1.symm⟩
      | some r =>
          obtain ⟨k', hk', hle, hat, hread, hrest⟩ := hs
          simp only [wp_bind, wp_pure]
          refine wp_mono (ih (htp.symm ▸ hr) ht hat hle (by omega)) ?_ fun _ _ => id
          rintro l u ⟨hu, hread', rfl⟩
          exact ⟨hu, hread.trans hread', hrest.symm⟩

omit [ReliableIo I] in
theorem at_scanWith (s : RecordFile I cap) (predicate : List UInt8 → Except RecordError Bool) :
    At (s.scanWith predicate) 0 := by
  refine ⟨?_, (Nat.zero_mod _).symm⟩
  show _ = 0 / s.header.slotsPerPage + 1
  rw [Nat.zero_div]
  rfl

/-- A scan to its end yields what the positions show. -/
theorem collect_reads (hr : Reads predicate h P E entry q R) (hp : P s) :
    wp collect (fun l t => P t.file ∧ Through R 0 h.total ∧ l = showing h entry q 0)
      (fun e t => E e t.file) (s.scanWith predicate) := by
  have hhdr := hr.header s hp
  unfold collect
  simp only [wp_bind, wp_get]
  have hfuel : h.total < s.header.numPages * s.header.slotsPerPage + 1 + 0 :=
    hhdr ▸ Nat.lt_succ_self _
  exact drain_reads hr hp (at_scanWith s predicate) (Nat.zero_le _) hfuel

end Reads

/-! ## A well-formed file -/

/-- What a scan keeps of its file, and the records its predicate accepts. -/
structure Scanning (sc : RecordScan I cap) (h : RecordFileHeader) (pages : Nat → PageData)
    (chain : List Nat) (q : List UInt8 → Bool) : Prop where
  holds : Holds sc.file pages chain
  header : sc.file.header = h
  accepts : ∀ rid data, lookup h pages rid = some data → sc.predicate data = .ok (q data)

/-- The pages of the positions from `k` up to `k'` are readable. -/
def ReadTo (h : RecordFileHeader) (pages : Nat → PageData) (k k' : Nat) : Prop :=
  ∀ j, k ≤ j → j < k' → Readable h (pages (ridAt h j).pageId)

theorem ReadTo.trans {k' k'' : Nat} (h₁ : ReadTo h pages k k') (h₂ : ReadTo h pages k' k'') :
    ReadTo h pages k k'' :=
  fun j hj hj'' => (Nat.lt_or_ge j k').elim (h₁ j hj) fun hge => h₂ j hge hj''

theorem readRecordIfUsed_spec (hh : Holds s pages chain) (hk : k < s.header.total) :
    wp (readRecordIfUsed (ridAt s.header k))
      (fun r t => r = recordAt s.header pages k ∧ Kept s t pages chain ∧
        Readable s.header (pages (ridAt s.header k).pageId))
      (fun _ t => Kept s t pages chain ∧
        Unreadable s.header pages (ridAt s.header k).pageId) s := by
  have hp := ridAt_hasPage hh.wf.fits hk
  have hs := ridAt_slot_lt hh.wf.fits k
  unfold readRecordIfUsed
  simp only [wp_bind, wp_get, wp_ite, wp_throw]
  rw [if_neg]
  · refine wp_withPage hh.quiet (hh.page_lt hp) fun pool hq => ?_
    have hkept : Kept s { s with pool } pages chain := ⟨⟨hq, hh.wf, hh.stored⟩, rfl, rfl⟩
    by_cases hr : Readable s.header (pages (ridAt s.header k).pageId)
    · rw [hr.readIfUsed hh.wf.fits hs, wp_check_ok]
      refine ⟨?_, hkept, hr⟩
      rw [recordAt, lookup_of_hasPage hp hs]
      split <;> rfl
    · rw [Record.readIfUsed, (hh.wf.page _ hp).readPageHeader_error hr]
      exact ⟨hkept, hp, hr⟩
  · obtain ⟨h₁, h₂⟩ := hp
    simp only [headerPageId]
    omega

/-- Where the scan stands after it found a record, or nothing more. -/
def Found (h : RecordFileHeader) (pages : Nat → PageData) (q : List UInt8 → Bool) (k : Nat)
    (t : RecordScan I cap) : Option Record → Prop
  | none => matching h pages q k = [] ∧ ReadTo h pages k h.total
  | some r => ∃ k', k < k' ∧ k' ≤ h.total ∧ At t k' ∧ ReadTo h pages k k' ∧
      matching h pages q k = r :: matching h pages q k'

/-- A scan that stopped at a page that is refused. -/
structure Stuck (t : RecordScan I cap) (h : RecordFileHeader) (pages : Nat → PageData)
    (chain : List Nat) (fileId : Nat) : Prop where
  holds : Holds t.file pages chain
  header : t.file.header = h
  fileId : t.file.fileId = fileId
  unreadable : ∃ p, Unreadable h pages p

/-- A scan of a well-formed file reads its live records; it stops at a page that is refused. -/
theorem Scanning.reads (hs : Scanning sc h pages chain q) (fileId : Nat) :
    Reads sc.predicate h (fun t : RecordFile I cap => Holds t pages chain ∧ t.header = h ∧
        t.fileId = fileId)
      (fun _ t => Holds t pages chain ∧ t.header = h ∧ t.fileId = fileId ∧ ∃ p,
        Unreadable h pages p)
      (recordAt h pages) q (fun j => Readable h (pages (ridAt h j).pageId)) where
  fits := hs.header ▸ hs.holds.wf.fits
  header _ ht := ht.2.1
  read t k := by
    rintro ⟨ht, rfl, hi⟩ hk
    refine wp_mono (readRecordIfUsed_spec ht hk) ?_ ?_
    · rintro _ u ⟨rfl, hu, hr⟩
      exact ⟨⟨hu.holds, hu.header, hu.fileId.trans hi⟩, rfl, hr⟩
    · rintro _ u ⟨hu, hun⟩
      exact ⟨hu.holds, hu.header, hu.fileId.trans hi, _, hun⟩
  accepts t k r _ hrec := by
    obtain ⟨data, hd, rfl⟩ := Option.map_eq_some_iff.mp hrec
    rw [hs.accepts _ _ hd]
    exact rfl

theorem nextRecord_spec {fileId : Nat} (hs : Scanning sc h pages chain q)
    (hi : sc.file.fileId = fileId) (ha : At sc k) (hk : k ≤ h.total) :
    wp nextRecord
      (fun r t => Scanning t h pages chain q ∧ t.file.fileId = fileId ∧ Found h pages q k t r)
      (fun _ t => Stuck t h pages chain fileId) sc := by
  refine wp_mono (nextRecord_reads (hs.reads fileId) ⟨hs.holds, hs.header, hi⟩ ha hk) ?_ ?_
  · rintro r t ⟨⟨ht, hhdr, hti⟩, hpred, hshows⟩
    refine ⟨⟨ht, hhdr, fun rid data hl => hpred ▸ hs.accepts rid data hl⟩, hti, ?_⟩
    cases r with
    | none => exact hshows
    | some r => exact hshows
  · rintro _ t ⟨ht, hhdr, hti, hu⟩
    exact ⟨ht, hhdr, hti, hu⟩

/-! ## The whole scan -/

/-- Every id inside the file has its position. -/
theorem exists_ridAt {rid : Rid} (hp : h.HasPage rid.pageId) (hs : rid.slotId < h.slotsPerPage) :
    ∃ k < h.total, ridAt h k = rid := by
  obtain ⟨h₁, h₂⟩ := hp
  have hpos : 0 < h.slotsPerPage := Nat.lt_of_le_of_lt (Nat.zero_le _) hs
  have hle := Nat.mul_le_mul_right h.slotsPerPage h₂
  have hsplit : rid.pageId * h.slotsPerPage = (rid.pageId - 1) * h.slotsPerPage +
      h.slotsPerPage := by
    rw [← Nat.succ_mul]
    congr 1
    omega
  refine ⟨(rid.pageId - 1) * h.slotsPerPage + rid.slotId, ?_, ?_⟩
  · unfold RecordFileHeader.total
    omega
  · obtain ⟨hd, hm⟩ := (Nat.div_mod_unique hpos).mpr
      ⟨show rid.slotId + h.slotsPerPage * (rid.pageId - 1) = (rid.pageId - 1) *
        h.slotsPerPage + rid.slotId by
        rw [Nat.mul_comm, Nat.add_comm], hs⟩
    unfold ridAt
    rw [hd, hm, show rid.pageId - 1 + 1 = rid.pageId by omega]

/-- A scan that went through has read every page. -/
theorem ReadTo.readable (hr : ReadTo h pages 0 h.total) (hf : h.Fits) {p : Nat} (hp : h.HasPage p) :
    Readable h (pages p) := by
  have hin : h.HasPage (Rid.mk p 0).pageId := hp
  obtain ⟨j, hj, he⟩ := exists_ridAt hin hf.slots_pos
  have := hr j (Nat.zero_le j) hj
  rwa [he] at this

/-- What a loop over a scan leaves, from position `k` to the end. -/
structure Scanned (t : RecordScan I cap) (h : RecordFileHeader) (pages : Nat → PageData)
    (chain : List Nat) (fileId k : Nat) : Prop where
  holds : Holds t.file pages chain
  header : t.file.header = h
  fileId : t.file.fileId = fileId
  read : ReadTo h pages k h.total

/-- A scan to its end yields every record that it accepts; it fails just when a page is refused. -/
theorem collect_spec (hh : Holds s pages chain) {predicate : List UInt8 → Except RecordError Bool}
    (hq : ∀ rid data, lookup s.header pages rid = some data → predicate data = .ok (q data)) :
    wp collect
      (fun l t => Kept s t.file pages chain ∧
        (∀ p, s.header.HasPage p → Readable s.header (pages p)) ∧
        l = matching s.header pages q 0)
      (fun _ t => Kept s t.file pages chain ∧ ∃ p, Unreadable s.header pages p)
      (s.scanWith predicate) := by
  have hs : Scanning (s.scanWith predicate) s.header pages chain q := ⟨hh, rfl, hq⟩
  refine wp_mono (collect_reads (hs.reads s.fileId) ⟨hh, rfl, rfl⟩) ?_ ?_
  · rintro _ t ⟨⟨ht, hhdr, hid⟩, hread, rfl⟩
    have hread : ReadTo s.header pages 0 s.header.total := hread
    exact ⟨⟨ht, hhdr, hid⟩, fun p hp => hread.readable hh.wf.fits hp, rfl⟩
  · rintro _ t ⟨ht, hhdr, hid, hu⟩
    exact ⟨⟨ht, hhdr, hid⟩, hu⟩

theorem scan_spec (hh : Holds s pages chain) :
    wp collect
      (fun l t => Kept s t.file pages chain ∧
        (∀ p, s.header.HasPage p → Readable s.header (pages p)) ∧
        l = records s.header pages)
      (fun _ t => Kept s t.file pages chain ∧ ∃ p, Unreadable s.header pages p) s.scan :=
  collect_spec (q := fun _ => true) hh fun _ _ _ => rfl

/-! ## The records in order -/

theorem recordAt_eq_some {r : Record} (hr : recordAt h pages k = some r) :
    r.rid = ridAt h k ∧ lookup h pages r.rid = some r.data := by
  obtain ⟨data, hd, rfl⟩ := Option.map_eq_some_iff.mp hr
  exact ⟨rfl, hd⟩

theorem mem_matching_from {r : Record} (hr : r ∈ matching h pages q k) :
    lookup h pages r.rid = some r.data ∧ q r.data = true := by
  simp only [matching, List.mem_filter, List.mem_filterMap] at hr
  obtain ⟨⟨j, -, hj⟩, hq⟩ := hr
  exact ⟨(recordAt_eq_some hj).2, hq⟩

theorem mem_matching {r : Record} :
    r ∈ matching h pages q 0 ↔ lookup h pages r.rid = some r.data ∧ q r.data = true := by
  simp only [matching, List.mem_filter, List.mem_filterMap, List.mem_range'_1]
  refine and_congr_left fun _ => ?_
  constructor
  · rintro ⟨k, -, hr⟩
    exact (recordAt_eq_some hr).2
  · intro hl
    have hin : h.HasPage r.rid.pageId ∧ r.rid.slotId < h.slotsPerPage := by
      by_contra hv
      rw [lookup_of_invalid hv] at hl
      cases hl
    obtain ⟨k, hk, he⟩ := exists_ridAt hin.1 hin.2
    refine ⟨k, by omega, ?_⟩
    rw [recordAt, he, hl]
    rfl

/-- The order of a scan: by page, then by slot. -/
def Rid.Before (a b : Rid) : Prop := a.pageId < b.pageId ∨ a.pageId = b.pageId ∧ a.slotId < b.slotId

theorem ridAt_before {j k : Nat} (hjk : j < k) : (ridAt h j).Before (ridAt h k) := by
  have hle : j / h.slotsPerPage ≤ k / h.slotsPerPage := Nat.div_le_div_right (Nat.le_of_lt hjk)
  have hj := Nat.mod_add_div j h.slotsPerPage
  have hk := Nat.mod_add_div k h.slotsPerPage
  rcases Nat.eq_or_lt_of_le hle with he | hlt
  · refine Or.inr ⟨congrArg (· + 1) he, ?_⟩
    show j % h.slotsPerPage < k % h.slotsPerPage
    rw [he] at hj
    omega
  · exact Or.inl (Nat.succ_lt_succ hlt)

theorem pairwise_matching : (matching h pages q 0).Pairwise fun a b => a.rid.Before b.rid := by
  unfold matching
  refine List.Pairwise.filter _ (List.pairwise_filterMap.mpr ?_)
  refine (List.pairwise_lt_range' ..).imp fun hjk a ha b hb => ?_
  rw [(recordAt_eq_some ha).1, (recordAt_eq_some hb).1]
  exact ridAt_before hjk

theorem not_before_self (rid : Rid) : ¬ rid.Before rid := by
  rintro (hlt | ⟨-, hlt⟩)
  · exact Nat.lt_irrefl _ hlt
  · exact Nat.lt_irrefl _ hlt

theorem ne_of_before {rid rid' : Rid} (h : rid.Before rid') : rid ≠ rid' :=
  fun he => not_before_self rid' (he ▸ h)

theorem nodup_rids_matching : ((matching h pages q 0).map Record.rid).Nodup :=
  List.pairwise_map.mpr (pairwise_matching.imp fun hab => ne_of_before hab)

theorem nodup_matching : (matching h pages q 0).Nodup := List.Nodup.of_map _ nodup_rids_matching

end Redbase.Record
