import Redbase.Record.Lemmas.Lifetime
import Redbase.Record.Lemmas.Scan

/-!
# Runs of a record file

A client's operations on one record file, what each of them answers, and the histories of the runs
that start with `RecordFile::create` and keep the page ids within the positive `i32`.
-/

namespace Redbase.Record

open Prog Bytes Page RecordFile Function

/-- One operation. `reopen` drops the file and opens it again, with a pool of any positive
capacity. -/
inductive Op where
  | insert (data : List UInt8)
  | get (rid : Rid)
  | update (rid : Rid) (data : List UInt8)
  | delete (rid : Rid)
  | flush
  | scan
  | reopen (cap : Nat) (pos : 0 < cap)

inductive Reply where
  | inserted (rid : Rid)
  | got (record : Record)
  | scanned (records : List Record)
  | done
  | failed (why : Stop RecordError)
  deriving DecidableEq

/-- An open record file, with the capacity of its pool. -/
structure Opened (I : Type) where
  cap : Nat
  file : RecordFile I cap

section Step

variable {I : Type} [PageIo I]

/-- A method's answer and the file after it. -/
def Opened.reply {α : Type} (s : Opened I) (m : RecordM I s.cap α) (answer : α → Reply) :
    Opened I × Reply :=
  match m s.file with
  | .ok a file => (⟨s.cap, file⟩, answer a)
  | .error e file => (⟨s.cap, file⟩, .failed e)

def Opened.scan (s : Opened I) : Opened I × Reply :=
  match RecordScan.collect s.file.scan with
  | .ok records scan => (⟨s.cap, scan.file⟩, .scanned records)
  | .error e scan => (⟨s.cap, scan.file⟩, .failed e)

/-- The file is dropped and its bytes are opened. A failure leaves no file; the old one stands
in. -/
def Opened.reopen (s : Opened I) (cap : Nat) : Opened I × Reply :=
  match s.file.drop with
  | none => (s, .failed .panic)
  | some io =>
      match PageFile.open io with
      | .error e _ => (s, .failed (.error (.pageStore e)))
      | .ok pageFile _ =>
          match RecordFile.open pageFile cap with
          | .error (e, _) => (s, .failed e)
          | .ok file => (⟨cap, file⟩, .done)

def step (s : Opened I) : Op → Opened I × Reply
  | .insert data => s.reply (RecordFile.insert data) .inserted
  | .get rid => s.reply (RecordFile.get rid) .got
  | .update rid data => s.reply (RecordFile.update rid data) fun _ => .done
  | .delete rid => s.reply (RecordFile.delete rid) fun _ => .done
  | .flush => s.reply RecordFile.flush fun _ => .done
  | .scan => s.scan
  | .reopen cap _ => s.reopen cap

/-- The runs on a file created on `pageFile`, with their history, newest first. -/
inductive Run (pageFile : PageFile I) (recordSize : Nat) : List (Op × Reply) → Opened I → Prop
  | create {cap : Nat} {file : RecordFile I cap} (pos : 0 < cap) :
      RecordFile.create pageFile cap recordSize = .ok file → Run pageFile recordSize [] ⟨cap, file⟩
  | step {h : List (Op × Reply)} {s : Opened I} (op : Op) : Run pageFile recordSize h s →
      (step s op).1.file.header.numPages < 2 ^ 31 →
        Run pageFile recordSize ((op, (step s op).2) :: h) (step s op).1

end Step

/-! ## What a history says -/

/-- The bytes last stored under each live record id. -/
def stored : List (Op × Reply) → Rid → Option (List UInt8)
  | [] => fun _ => none
  | (.insert data, .inserted rid) :: h => update (stored h) rid (some data)
  | (.update rid data, .done) :: h => update (stored h) rid (some data)
  | (.delete rid, .done) :: h => update (stored h) rid none
  | _ :: h => stored h

/-- The reply to an operation on `rid` that answers `ok` on a live id. -/
def OnLive (h : List (Op × Reply)) (rid : Rid) (r : Reply) (ok : List UInt8 → Reply) : Prop :=
  match stored h rid with
  | some data => r = ok data
  | none => ∃ e, r = .failed e ∧ Refused rid e

/-- What a finite map from record ids to `recordSize` bytes answers to `op` after the history
`h`. -/
def Answers (recordSize : Nat) (h : List (Op × Reply)) (r : Reply) : Op → Prop
  | .insert data =>
      if data.length = recordSize then ∃ rid, r = .inserted rid ∧ stored h rid = none
      else r = .failed (.error (.sizeMismatch recordSize data.length))
  | .get rid => OnLive h rid r fun data => .got ⟨rid, data⟩
  | .update rid data =>
      if data.length = recordSize then OnLive h rid r fun _ => .done
      else r = .failed (.error (.sizeMismatch recordSize data.length))
  | .delete rid => OnLive h rid r fun _ => .done
  | .flush | .reopen _ _ => r = .done
  | .scan => ∃ records, r = .scanned records ∧ (records.Pairwise fun a b => a.rid.Before b.rid) ∧
      ∀ record, record ∈ records ↔ stored h record.rid = some record.data

/-! ## A step -/

section Steps

variable {I : Type} [ReliableIo I] {s : Opened I} {h : List (Op × Reply)} {recordSize : Nat}

/-- The file implements what the history says. -/
structure Implements (s : Opened I) (recordSize : Nat) (h : List (Op × Reply))
    (pages : Nat → PageData) (chain : List Nat) : Prop where
  holds : Holds s.file pages chain
  size : s.file.header.recordSize = recordSize
  entries : lookup s.file.header pages = stored h

/-- A step from `s` to `t` that answers `op` with `r`, while the page ids are small as the history
says. -/
structure Follows (s t : Opened I) (recordSize : Nat) (h : List (Op × Reply)) (op : Op)
    (r : Reply) : Prop where
  answers : s.file.header.numPages < 2 ^ 31 → Answers recordSize h r op
  grows : t.file.header.numPages ≤ s.file.header.numPages + 1
  kept : ∃ pages chain, Implements t recordSize ((op, r) :: h) pages chain

/-- A step from `s` to `t` that answers `op` with `r`. -/
structure Simulates (s t : Opened I) (recordSize : Nat) (h : List (Op × Reply)) (op : Op)
    (r : Reply) : Prop where
  answers : Answers recordSize h r op
  grows : t.file.header.numPages ≤ s.file.header.numPages + 1
  kept : ∃ pages chain, Implements t recordSize ((op, r) :: h) pages chain

variable {pages : Nat → PageData} {chain : List Nat}

theorem Implements.small (hi : Implements s recordSize h pages chain)
    (hn : s.file.header.numPages < 2 ^ 31) :
    Small chain := fun _ hp => Nat.lt_of_le_of_lt (hi.holds.wf.mem_hasPage hp).2 hn

theorem Implements.readable (hi : Implements s recordSize h pages chain)
    (hn : s.file.header.numPages < 2 ^ 31) (p : Nat) (hp : s.file.header.HasPage p) :
    Readable s.file.header (pages p) := hi.holds.wf.readable (hi.small hn) hp

omit [ReliableIo I] in
theorem reply_of_wp [PageIo I] {α : Type} {m : RecordM I s.cap α} {answer : α → Reply}
    {Q : α → RecordFile I s.cap → Prop} {E : Stop RecordError → RecordFile I s.cap → Prop}
    {R : Opened I → Reply → Prop} (hm : wp m Q E s.file)
    (hk : ∀ a file, Q a file → R ⟨s.cap, file⟩ (answer a))
    (he : ∀ e file, E e file → R ⟨s.cap, file⟩ (.failed e)) :
    R (s.reply m answer).1 (s.reply m answer).2 := by
  unfold Opened.reply
  unfold wp at hm
  cases hr : m s.file with
  | ok a file => rw [hr] at hm; exact hk a file hm
  | error e file => rw [hr] at hm; exact he e file hm

/-- A step that keeps every entry. -/
theorem Implements.same {cap : Nat} {file : RecordFile I cap} {pages' : Nat → PageData}
    {chain' : List Nat} {op : Op} {r : Reply} (hi : Implements s recordSize h pages chain)
    (hf : Holds file pages' chain') (hhdr : file.header = s.file.header)
    (hp : ∀ p ≠ 0, pages' p = pages p)
    (ha : s.file.header.numPages < 2 ^ 31 → Answers recordSize h r op)
    (hst : stored ((op, r) :: h) = stored h) :
    Follows s ⟨cap, file⟩ recordSize h op r := by
  refine ⟨ha, ?_, pages', chain', hf, ?_, ?_⟩
  · show file.header.numPages ≤ _
    rw [hhdr]
    exact Nat.le_succ _
  · show file.header.recordSize = _
    rw [hhdr]
    exact hi.size
  · show lookup file.header pages' = _
    rw [hhdr, lookup_congr_pages hp, hi.entries, hst]

/-- A step that changes the entry of `rid`. -/
theorem Implements.change {file : RecordFile I s.cap} {pages' : Nat → PageData} {chain' : List Nat}
    {op : Op} {r : Reply} {rid : Rid} {entry : Option (List UInt8)}
    (hi : Implements s recordSize h pages chain) (hf : Holds file pages' chain')
    (hs : Stepped s.file file pages pages' rid entry)
    (hn : file.header.numPages ≤ s.file.header.numPages + 1)
    (ha : s.file.header.numPages < 2 ^ 31 → Answers recordSize h r op)
    (hst : stored ((op, r) :: h) = update (stored h) rid entry) :
    Follows s ⟨s.cap, file⟩ recordSize h op r := by
  refine ⟨ha, hn, pages', chain', hf, hs.layout.size.trans hi.size, ?_⟩
  rw [hs.lookup, hi.entries, hst]

theorem Implements.not_unreadable (hi : Implements s recordSize h pages chain)
    (hn : s.file.header.numPages < 2 ^ 31) : ¬ ∃ p, Unreadable s.file.header pages p := by
  rintro ⟨p, hp, hu⟩
  exact hu (hi.readable hn p hp)

/-- The reply on an id that is not live. -/
theorem Implements.denied {rid : Rid} {e : Stop RecordError}
    (hi : Implements s recordSize h pages chain) (hr : ¬ Unreadable s.file.header pages rid.pageId)
    (hd : Denied s.file.header pages rid e) (ok : List UInt8 → Reply) :
    OnLive h rid (.failed e) ok := by
  rcases hd with ⟨he, hl⟩ | hu
  · rw [hi.entries] at hl
    unfold OnLive
    rw [hl]
    exact ⟨e, rfl, he⟩
  · exact (hr hu).elim

/-- The reply on a live id. -/
theorem Implements.onLive {rid : Rid} (hi : Implements s recordSize h pages chain)
    (hl : lookup s.file.header pages rid ≠ none) (r : Reply) : OnLive h rid r fun _ => r := by
  rw [hi.entries] at hl
  unfold OnLive
  cases hs : stored h rid with
  | none => exact absurd hs hl
  | some data => rfl

/-- A failure of the length check changes nothing. -/
theorem Implements.wrongLength {α : Type} {data : List UInt8} {answer : α → Reply} {op : Op}
    {m : RecordM I s.cap α} (hi : Implements s recordSize h pages chain)
    (hm : wp m (fun _ _ => False)
      (fun e t => e = .error (.sizeMismatch s.file.header.recordSize data.length) ∧
        t = s.file) s.file)
    (ha : Answers recordSize h (.failed (.error (.sizeMismatch recordSize data.length))) op)
    (hst : ∀ e, stored ((op, .failed e) :: h) = stored h) :
    Follows s (s.reply m answer).1 recordSize h op (s.reply m answer).2 := by
  refine reply_of_wp (R := fun t r => Follows s t recordSize h op r) hm (fun _ _ => False.elim) ?_
  rintro _ _ ⟨rfl, rfl⟩
  rw [hi.size]
  exact hi.same hi.holds rfl (fun _ _ => rfl) (fun _ => ha) (hst _)

theorem Implements.follows_get (hi : Implements s recordSize h pages chain) (rid : Rid) :
    Follows s (step s (.get rid)).1 recordSize h (.get rid) (step s (.get rid)).2 ∧
      (¬ Unreadable s.file.header pages rid.pageId →
        Answers recordSize h (step s (.get rid)).2 (.get rid)) := by
  refine reply_of_wp (R := fun t r => Follows s t recordSize h (.get rid) r ∧
    (¬ Unreadable s.file.header pages rid.pageId → Answers recordSize h r (.get rid)))
      (get_spec hi.holds) ?_ ?_
  · rintro r file ⟨hk, rfl, hl⟩
    have ha : Answers recordSize h (.got r) (.get r.rid) := by
      rw [hi.entries] at hl
      show OnLive _ _ _ _
      unfold OnLive
      rw [hl]
    exact ⟨hi.same hk.holds hk.header (fun _ _ => rfl) (fun _ => ha) rfl, fun _ => ha⟩
  · rintro e file ⟨hk, hden⟩
    have ha : ¬ Unreadable s.file.header pages rid.pageId →
        Answers recordSize h (.failed e) (.get rid) :=
      fun hr => hi.denied hr hden _
    exact ⟨hi.same hk.holds hk.header (fun _ _ => rfl)
      (fun hn => ha fun hu => hi.not_unreadable hn ⟨_, hu⟩) rfl, ha⟩

theorem step_follows (hi : Implements s recordSize h pages chain) (op : Op) :
    Follows s (step s op).1 recordSize h op (step s op).2 := by
  have hr : ∀ p, s.file.header.numPages < 2 ^ 31 → ¬ Unreadable s.file.header pages p :=
    fun p hn hu => hi.not_unreadable hn ⟨p, hu⟩
  cases op with
  | insert data =>
      by_cases hd : data.length = recordSize
      · refine reply_of_wp (R := fun t r => Follows s t recordSize h (.insert data) r)
          (insert_spec hi.holds (hd.trans hi.size.symm)) ?_ ?_
        · rintro rid file ⟨pages', chain', hf, hst, hnone, hle⟩
          rw [hi.entries] at hnone
          exact hi.change hf hst hle
            (fun _ => by rw [Answers, if_pos hd]; exact ⟨rid, rfl, hnone⟩) rfl
        · rintro e file ⟨hk, hlim⟩
          refine hi.same hk.holds hk.header (fun _ _ => rfl) (fun hn => ?_) rfl
          rcases hlim with hlim | ⟨p, hu⟩
          · omega
          · exact (hr p hn hu).elim
      · exact hi.wrongLength (insert_wrongLength (hi.size ▸ hd))
          (by rw [Answers, if_neg hd]) fun _ => rfl
  | get rid => exact (hi.follows_get rid).1
  | update rid data =>
      by_cases hd : data.length = recordSize
      · refine reply_of_wp (R := fun t r => Follows s t recordSize h (.update rid data) r)
          (update_spec hi.holds (hd.trans hi.size.symm)) ?_ ?_
        · rintro _ file ⟨pages', hf, hst, hl, hhdr, -⟩
          refine hi.change hf hst (by rw [hhdr]; exact Nat.le_succ _) (fun _ => ?_) rfl
          rw [Answers, if_pos hd]
          exact hi.onLive hl _
        · rintro e file ⟨hk, hden⟩
          refine hi.same hk.holds hk.header (fun _ _ => rfl) (fun hn => ?_) rfl
          rw [Answers, if_pos hd]
          exact hi.denied (hr _ hn) hden _
      · exact hi.wrongLength (update_wrongLength (hi.size ▸ hd))
          (by rw [Answers, if_neg hd]) fun _ => rfl
  | delete rid =>
      refine reply_of_wp (R := fun t r => Follows s t recordSize h (.delete rid) r)
        (delete_spec hi.holds) ?_ ?_
      · rintro _ file ⟨pages', chain', hf, hst, hl, hfreed⟩
        exact hi.change hf hst (Nat.le_succ_of_le (Nat.le_of_eq hfreed.numPages))
          (fun _ => hi.onLive hl _) rfl
      · rintro e file ⟨hk, hden⟩
        exact hi.same hk.holds hk.header (fun _ _ => rfl) (fun hn => hi.denied (hr _ hn) hden _) rfl
  | flush =>
      refine reply_of_wp (R := fun t r => Follows s t recordSize h .flush r)
        (flush_spec hi.holds) ?_ ?_
      · rintro _ file ⟨pages', hf, hp, hhdr, -⟩
        exact hi.same hf hhdr hp (fun _ => rfl) rfl
      · exact fun _ _ => False.elim
  | scan =>
      have hw := scan_spec hi.holds
      unfold wp at hw
      cases hc : RecordScan.collect s.file.scan with
      | ok l t =>
          rw [hc] at hw
          obtain ⟨hk, -, rfl⟩ := hw
          have hstep : step s .scan =
              (⟨s.cap, t.file⟩, .scanned (records s.file.header pages)) := by
            show s.scan = _
            rw [Opened.scan, hc]
          rw [hstep]
          refine hi.same hk.holds hk.header (fun _ _ => rfl)
            (fun _ => ⟨_, rfl, pairwise_matching, fun r => ?_⟩) rfl
          rw [mem_matching, hi.entries]
          simp
      | error e t =>
          rw [hc] at hw
          obtain ⟨hk, p, hu⟩ := hw
          have hstep : step s .scan = (⟨s.cap, t.file⟩, .failed e) := by
            show s.scan = _
            rw [Opened.scan, hc]
          rw [hstep]
          exact hi.same hk.holds hk.header (fun _ _ => rfl) (fun hn => (hr p hn hu).elim) rfl
  | reopen cap pos =>
      obtain ⟨io, pages', hdrop, hp, hsaved⟩ := drop_spec hi.holds
      obtain ⟨pageFile, io', hopen, ⟨-, file, hfile, hhdr, hf, -⟩ | ⟨hv, e, left, hfile, -⟩⟩ :=
        hsaved.open_cases pos rfl
      · have hstep : step s (.reopen cap pos) = (⟨cap, file⟩, .done) := by
          show s.reopen cap = _
          unfold Opened.reopen
          simp only [hdrop, hopen, hfile]
        rw [hstep]
        exact hi.same hf hhdr hp (fun _ => rfl) rfl
      · have hstep : step s (.reopen cap pos) = (s, .failed (.error e)) := by
          show s.reopen cap = _
          unfold Opened.reopen
          simp only [hdrop, hopen, hfile]
        rw [hstep]
        exact hi.same hi.holds rfl (fun _ _ => rfl)
          (fun hn => absurd (hsaved.wf.valid (hi.small hn)) hv) rfl

theorem step_simulates (hi : Implements s recordSize h pages chain)
    (hn : s.file.header.numPages < 2 ^ 31) (op : Op) :
    Simulates s (step s op).1 recordSize h op (step s op).2 :=
  have hf := step_follows hi op
  ⟨hf.answers hn, hf.grows, hf.kept⟩

/-- A new file holds nothing. -/
theorem create_implements {pageFile : PageFile I} (hp : Represents pageFile Store.empty) {cap : Nat}
    (pos : 0 < cap) {file : RecordFile I cap}
    (hc : RecordFile.create pageFile cap recordSize = .ok file) :
    file.header.numPages = 0 ∧ ∃ pages chain, Implements ⟨cap, file⟩ recordSize [] pages chain := by
  rcases create_spec (Represents.plain hp fun _ => Block.zero _) pos recordSize with
    ⟨e, io, -, he⟩ | ⟨t, pages, ht, hh, hsize, hn⟩
  · rw [hc] at he
    cases he
  · obtain rfl : file = t := Except.ok.inj (hc.symm.trans ht)
    refine ⟨hn, pages, [], hh, hsize, ?_⟩
    funext rid
    refine lookup_of_invalid fun hv => ?_
    obtain ⟨⟨h₁, h₂⟩, -⟩ := hv
    change _ ≤ file.header.numPages at h₂
    omega

end Steps

end Redbase.Record
