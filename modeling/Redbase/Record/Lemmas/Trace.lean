import Redbase.Record.Trace

/-!
# A scan that is asked again and again

What `n` calls of `next_record` return, wherever the scan stands.
-/

namespace Redbase.Record

open Prog Bytes Page RecordFile RecordScan Function

variable {I : Type} [ReliableIo I] {cap k n : Nat} {sc : RecordScan I cap} {pages : Nat → PageData}
  {chain : List Nat} {h : RecordFileHeader} {q : List UInt8 → Bool} {pageFile : PageFile I}
  {recordSize : Nat} {s : Opened I} {hist : List (Op × Reply)}

/-- In every state the file holds what its history says. -/
theorem Trace.implements (hp : Represents pageFile Store.empty)
    (ht : Trace pageFile recordSize hist s) :
    ∃ pages chain, Implements s recordSize hist pages chain := by
  induction ht with
  | create pos hc => exact (create_implements hp pos hc).2
  | step op _ ih =>
      obtain ⟨pages, chain, hi⟩ := ih
      exact (step_follows hi op).kept

/-! ## The end of a scan -/

/-- The cursor is past the last page. -/
def Ended (sc : RecordScan I cap) : Prop := sc.nextPageId > sc.file.header.numPages

omit [ReliableIo I] in
theorem nextFrom_ended [PageIo I] (fuel : Nat) :
    wp (nextFrom fuel) (fun r t => r = none → Ended t) (fun _ _ => True) sc := by
  induction fuel generalizing sc with
  | zero => trivial
  | succ fuel ih =>
      unfold nextFrom
      simp only [wp_bind, wp_get, wp_ite, wp_pure, wp_modify, wp_zoom]
      split
      next hend => exact fun _ => hend
      next =>
        refine wp_mono (wp_true _ _) ?_ fun _ _ => id
        rintro r file -
        cases r with
        | none => exact ih
        | some r =>
            simp only [wp_bind, wp_lift, wp_ite, wp_pure]
            refine ⟨fun b _ => ?_, fun _ _ => trivial⟩
            split
            · intro hr
              cases hr
            · exact ih

omit [ReliableIo I] in
theorem Ended.nextRecord [PageIo I] (he : Ended sc) :
    wp nextRecord (fun r t => r = none ∧ t = sc) never sc := by
  have hend : sc.nextPageId > sc.file.header.numPages := he
  unfold RecordScan.nextRecord nextFrom
  simp only [wp_bind, wp_get, wp_ite]
  rw [if_pos hend]
  exact ⟨rfl, rfl⟩

omit [ReliableIo I] in
theorem Ended.calls [PageIo I] (he : Ended sc) (n : Nat) :
    wp (calls n) (fun l t => l = List.replicate n none ∧ t = sc) never sc := by
  induction n with
  | zero => exact ⟨rfl, rfl⟩
  | succ n ih =>
      unfold RecordScan.calls
      simp only [wp_bind]
      refine wp_mono he.nextRecord ?_ fun _ _ => id
      rintro _ _ ⟨rfl, rfl⟩
      refine wp_mono ih ?_ fun _ _ => id
      rintro _ _ ⟨rfl, rfl⟩
      exact ⟨List.replicate_succ.symm, rfl⟩

/-! ## The calls -/

theorem take_padded {α : Type} (l : List α) (a : α) (n : Nat) :
    (l ++ List.replicate (n + 1) a).take n = (l ++ List.replicate n a).take n := by
  rw [List.replicate_succ', ← List.append_assoc, List.take_append_of_le_length (by simp)]

/-- What `n` calls answer from position `k` on; a call past the last record has read every page. -/
theorem calls_spec {fileId : Nat} (hs : Scanning sc h pages chain q) (hi : sc.file.fileId = fileId)
    (ha : At sc k) (hk : k ≤ h.total) (n : Nat) :
    wp (calls n)
      (fun l t => Holds t.file pages chain ∧ t.file.header = h ∧
        l = ((matching h pages q k).map some ++ List.replicate n none).take n ∧
        ((matching h pages q k).length < n → ReadTo h pages k h.total))
      (fun _ t => Stuck t h pages chain fileId) sc := by
  induction n generalizing k sc with
  | zero => exact ⟨hs.holds, hs.header, by simp, fun hlt => absurd hlt (Nat.not_lt_zero _)⟩
  | succ n ih =>
      unfold calls
      simp only [wp_bind]
      refine wp_mono (wp_and (nextRecord_spec hs hi ha hk) (nextFrom_ended _)) ?_ fun _ _ he => he.1
      rintro r t ⟨⟨ht, hti, hfound⟩, hend⟩
      cases r with
      | none =>
          obtain ⟨hnil, hread⟩ := hfound
          simp only [wp_pure]
          refine wp_mono ((hend rfl).calls n) ?_ fun _ _ => False.elim
          rintro _ _ ⟨rfl, rfl⟩
          refine ⟨ht.holds, ht.header, ?_, fun _ => hread⟩
          rw [hnil]
          simp [List.replicate_succ]
      | some r =>
          obtain ⟨k', -, hle, hat, hread, hrest⟩ := hfound
          simp only [wp_pure]
          refine wp_mono (ih ht hti hat hle) ?_ fun _ _ => id
          rintro l u ⟨hu, hhdr, rfl, hall⟩
          refine ⟨hu, hhdr, ?_, fun hlt => hread.trans (hall ?_)⟩
          · rw [hrest, List.map_cons, List.cons_append, List.take_succ_cons, take_padded]
          · rw [hrest] at hlt
            exact Nat.lt_of_succ_lt_succ hlt

/-! ## Starting -/

theorem length_of_lookup {rid : Rid} {data : List UInt8} (hf : h.Fits)
    (hl : lookup h pages rid = some data) :
    data.length = h.recordSize := by
  unfold lookup at hl
  split at hl
  next hlive =>
    obtain rfl := Option.some.inj hl
    exact Block.length_read _ (hf.slot_le hlive.2.1)
  next => cases hl

/-- The answer of a predicate, where it has one. -/
def accepted (predicate : List UInt8 → Except RecordError Bool) (bytes : List UInt8) : Bool :=
  match predicate bytes with
  | .ok b => b
  | .error _ => false

theorem Decides.eq_ok {predicate : List UInt8 → Except RecordError Bool} {record : List UInt8}
    (hd : Decides n predicate) (hl : record.length = n) :
    predicate record = .ok (accepted predicate record) := by
  obtain ⟨b, hb⟩ := hd record hl
  rw [hb, accepted, hb]

omit [ReliableIo I] in
/-- A scan starts before the first slot, with a predicate that answers on every record. -/
theorem startScan_eq_ok {file : RecordFile I cap} {call : ScanCall}
    (hs : file.startScan call = .ok sc) :
    ∃ predicate, sc = file.scanWith predicate ∧ Decides file.header.recordSize predicate := by
  cases call with
  | scan => exact ⟨_, (Except.ok.inj hs).symm, fun _ _ => ⟨true, rfl⟩⟩
  | scanWith predicate =>
      exact ⟨_, (Except.ok.inj hs).symm, fun record _ => ⟨predicate record, rfl⟩⟩
  | scanWithPredicate predicate =>
      obtain ⟨_, hv, he⟩ := bind_eq_ok.mp hs
      exact ⟨_, (Except.ok.inj he).symm, ScanPredicate.decides hv⟩
  | scanWithFilter filter =>
      obtain ⟨_, hv, he⟩ := bind_eq_ok.mp hs
      exact ⟨_, (Except.ok.inj he).symm, (CompoundPredicate.computes hv).decides⟩
  | scanWithLogic filter =>
      obtain ⟨_, hv, he⟩ := bind_eq_ok.mp hs
      exact ⟨_, (Except.ok.inj he).symm, (LogicFilter.computes hv).decides⟩

/-- A scan is exact just when no page is refused: it reads all of them. -/
theorem Implements.exact_iff {call : ScanCall} {sc : RecordScan I s.cap}
    (hi : Implements s recordSize hist pages chain) (hs : s.file.startScan call = .ok sc) :
    sc.Exact recordSize hist ↔ ∀ p, s.file.header.HasPage p → Readable s.file.header (pages p) := by
  obtain ⟨predicate, rfl, hd⟩ := startScan_eq_ok hs
  have hfits := hi.holds.wf.fits
  have hq : ∀ rid data, lookup s.file.header pages rid = some data →
      predicate data = .ok (accepted predicate data) :=
    fun rid data hl => hd.eq_ok (length_of_lookup hfits hl)
  have hsc : Scanning (s.file.scanWith predicate) s.file.header pages chain (accepted predicate) :=
    ⟨hi.holds, rfl, hq⟩
  have hcalls := calls_spec hsc rfl (at_scanWith s.file predicate) (Nat.zero_le _)
  constructor
  · rintro ⟨l, -, hl⟩ p hp
    obtain ⟨t, ht, -⟩ :=
      hl (l.length + (matching s.file.header pages (accepted predicate) 0).length + 1)
    exact (wp_ok ht (hcalls _)).2.2.2 (by omega) |>.readable hfits hp
  · intro hr
    refine ⟨matching s.file.header pages (accepted predicate) 0,
      ⟨pairwise_matching, fun r => ?_⟩, fun n => ?_⟩
    · rw [mem_matching, ← hi.entries]
      refine and_congr_right fun hl => ?_
      show _ ↔ predicate r.data = _
      rw [hq _ _ hl]
      simp
    · obtain ⟨l, t, ht, hh, hhdr, rfl, -⟩ := exists_ok_of_wp
        (wp_mono (hcalls n) (fun _ _ => id) fun _ _ ⟨_, _, _, p, hp, hu⟩ => hu (hr p hp))
      refine ⟨t, ht, fun rid => ?_⟩
      have hi' : Implements ⟨s.cap, t.file⟩ recordSize hist pages chain := by
        refine ⟨hh, ?_, ?_⟩
        · rw [hhdr]
          exact hi.size
        · rw [hhdr]
          exact hi.entries
      refine (hi'.follows_get rid).2 ?_
      rw [hhdr]
      exact fun hu => hu.2 (hr _ hu.1)

end Redbase.Record
