import Mathlib.Data.Finset.Prod
import Redbase.Record.Run

/-!
# How many pages the records need

The largest number of records that were live at once determines the number of data pages.
-/

namespace Redbase.Record

open Prog Bytes Page Buffer BufferPoolState Function RecordFile Linked

/-! ## The live records of a history -/

/-- The ids that are live after a history. -/
def liveRids : List (Op × Reply) → Finset Rid
  | [] => ∅
  | (.insert _, .inserted rid) :: h => insert rid (liveRids h)
  | (.update rid _, .done) :: h => insert rid (liveRids h)
  | (.delete rid, .done) :: h => (liveRids h).erase rid
  | _ :: h => liveRids h

/-- The largest number of records that were live at once. -/
def peak : List (Op × Reply) → Nat
  | [] => 0
  | e :: h => max (peak h) (liveRids (e :: h)).card

theorem mem_liveRids {h : List (Op × Reply)} {rid : Rid} :
    rid ∈ liveRids h ↔ stored h rid ≠ none := by
  fun_induction liveRids h with
  | case1 => simp [stored]
  | case2 data rid' h ih =>
      rw [stored, update_apply, Finset.mem_insert, ih]
      split <;> simp_all
  | case3 rid' data h ih =>
      rw [stored, update_apply, Finset.mem_insert, ih]
      split <;> simp_all
  | case4 rid' h ih =>
      rw [stored, update_apply, Finset.mem_erase, ih]
      split <;> simp_all
  | case5 e h hins hupd hdel ih =>
      rw [ih]
      obtain ⟨op, r⟩ := e
      cases op <;> cases r <;> first | rfl | simp_all

theorem card_le_peak (h : List (Op × Reply)) : (liveRids h).card ≤ peak h := by
  cases h with
  | nil => exact Nat.le_refl _
  | cons e h => exact Nat.le_max_right _ _

/-! ## The slots of a file -/

/-- The record ids inside the file. -/
def RecordFileHeader.slots (h : RecordFileHeader) : Finset Rid :=
  (Finset.range h.numPages ×ˢ Finset.range h.slotsPerPage).image fun x => ⟨x.1 + 1, x.2⟩

theorem RecordFileHeader.card_slots (h : RecordFileHeader) :
    h.slots.card = h.numPages * h.slotsPerPage := by
  rw [slots, Finset.card_image_of_injective, Finset.card_product, Finset.card_range,
    Finset.card_range]
  intro x y hxy
  cases x
  cases y
  simp_all

theorem RecordFileHeader.mem_slots {h : RecordFileHeader} {rid : Rid} :
    rid ∈ h.slots ↔ h.HasPage rid.pageId ∧ rid.slotId < h.slotsPerPage := by
  obtain ⟨p, slot⟩ := rid
  simp only [slots, Finset.mem_image, Finset.mem_product, Finset.mem_range, HasPage]
  constructor
  · rintro ⟨⟨q, i⟩, ⟨hq, hi⟩, he⟩
    cases he
    exact ⟨by omega, hi⟩
  · rintro ⟨hp, hs⟩
    exact ⟨⟨p - 1, slot⟩, ⟨by omega, hs⟩, by simp only [Rid.mk.injEq, and_true]; omega⟩

variable {I : Type} [ReliableIo I] {s : Opened I} {h : List (Op × Reply)} {recordSize : Nat}
  {pages : Nat → PageData} {chain : List Nat}

theorem Implements.subset_slots (hi : Implements s recordSize h pages chain) :
    liveRids h ⊆ s.file.header.slots := by
  intro rid hr
  rw [mem_liveRids, ← hi.entries] at hr
  obtain ⟨data, hd⟩ := Option.ne_none_iff_exists'.mp hr
  exact RecordFileHeader.mem_slots.mpr (hasPage_of_lookup hd)

/-- Without a page in the chain every slot is taken. -/
theorem Implements.slots_taken (hi : Implements s recordSize h pages []) :
    liveRids h = s.file.header.slots := by
  refine Finset.Subset.antisymm hi.subset_slots fun rid hr => ?_
  obtain ⟨hp, hs⟩ := RecordFileHeader.mem_slots.mp hr
  rw [mem_liveRids, ← hi.entries, lookup_of_hasPage hp hs]
  cases hfree : freeAt s.file.header (pages rid.pageId) rid.slotId with
  | false => simp
  | true =>
      have hpos : 0 < freeCount s.file.header (pages rid.pageId) :=
        Bitmap.count_pos_iff.mpr ⟨_, hs, hfree⟩
      have hm := (hi.holds.wf.mem_iff _).mpr ⟨hp, hpos⟩
      cases hm

/-! ## When the file grows -/

/-- Only an `insert` that finds the chain empty adds a page. -/
theorem insert_listed {cap : Nat} {file : RecordFile I cap} {data : List UInt8}
    (hh : Holds file pages chain) (hc : chain ≠ []) :
    wp (RecordFile.insert data) (fun _ t => t.header.numPages = file.header.numPages)
      (fun _ t => t.header.numPages = file.header.numPages) file := by
  by_cases hd : data.length = file.header.recordSize
  · rcases hh.first_cases with ⟨-, hnil⟩ | ⟨p, rest, rfl, -, hne, hp⟩
    · exact absurd hnil hc
    · unfold RecordFile.insert
      simp only [wp_bind, wp_get, ensureRecordLength_eq, if_pos hd, wp_check_ok, wp_ite,
        if_neg hne, hp]
      have hhas := hh.wf.mem_hasPage List.mem_cons_self
      by_cases hr : Readable file.header (pages p)
      · refine wp_mono (insertHead_spec hh hr hd) ?_ fun _ _ => False.elim
        rintro rid t ⟨pages', chain', -, -, -, -, hn⟩
        exact hn
      · exact hh.refusedPage ⟨hhas, hr⟩ (fun page e he => insertInto_refused he _ _)
          fun _ _ hk => congrArg _ hk.header
  · refine wp_mono (insert_wrongLength hd) (fun _ _ => False.elim) ?_
    rintro _ _ ⟨-, rfl⟩
    rfl

/-- No other step changes the number of pages. -/
theorem Implements.step_numPages (hi : Implements s recordSize h pages chain) (op : Op)
    (hop : chain = [] → ∀ data, op ≠ .insert data) :
    (step s op).1.file.header.numPages = s.file.header.numPages := by
  cases op with
  | insert data =>
      have hc : chain ≠ [] := fun hn => hop hn data rfl
      exact reply_of_wp (R := fun t _ => t.file.header.numPages = _) (insert_listed hi.holds hc)
        (fun _ _ hn => hn) fun _ _ hn => hn
  | get rid =>
      exact reply_of_wp (R := fun t _ => t.file.header.numPages = _) (get_spec hi.holds)
        (fun _ _ hk => congrArg _ hk.1.header) fun _ _ hk => congrArg _ hk.1.header
  | update rid data =>
      by_cases hd : data.length = s.file.header.recordSize
      · refine reply_of_wp (R := fun t _ => t.file.header.numPages = _) (update_spec hi.holds hd) ?_
          fun _ _ hk => congrArg _ hk.1.header
        rintro _ file ⟨_, -, -, -, hhdr, -⟩
        exact congrArg _ hhdr
      · refine reply_of_wp (R := fun t _ => t.file.header.numPages = _) (update_wrongLength hd)
          (fun _ _ => False.elim) ?_
        rintro _ _ ⟨-, rfl⟩
        rfl
  | delete rid =>
      refine reply_of_wp (R := fun t _ => t.file.header.numPages = _) (delete_spec hi.holds) ?_
        fun _ _ hk => congrArg _ hk.1.header
      rintro _ file ⟨_, _, -, -, -, hfreed⟩
      exact hfreed.numPages
  | flush =>
      refine reply_of_wp (R := fun t _ => t.file.header.numPages = _) (flush_spec hi.holds) ?_
        fun _ _ => False.elim
      rintro _ file ⟨_, -, -, hhdr, -⟩
      exact congrArg _ hhdr
  | scan =>
      have hw := scan_spec hi.holds
      unfold wp at hw
      show (s.scan).1.file.header.numPages = _
      unfold Opened.scan
      cases hc : RecordScan.collect s.file.scan with
      | ok l t =>
          rw [hc] at hw
          exact congrArg _ hw.1.header
      | error e t =>
          rw [hc] at hw
          exact congrArg _ hw.1.header
  | reopen cap pos =>
      obtain ⟨io, pages', hdrop, hp, hsaved⟩ := drop_spec hi.holds
      obtain ⟨pageFile, io', hopen, ⟨-, file, hfile, hhdr, hf, -⟩ | ⟨hv, e, left, hfile, -⟩⟩ :=
        hsaved.open_cases pos rfl
      · have hstep : step s (.reopen cap pos) = (⟨cap, file⟩, .done) := by
          show s.reopen cap = _
          unfold Opened.reopen
          simp only [hdrop, hopen, hfile]
        rw [hstep]
        exact congrArg _ hhdr
      · have hstep : step s (.reopen cap pos) = (s, .failed (.error e)) := by
          show s.reopen cap = _
          unfold Opened.reopen
          simp only [hdrop, hopen, hfile]
        rw [hstep]

/-- The pages are as many as the peak needs. -/
structure Dense (h : RecordFileHeader) (hist : List (Op × Reply)) : Prop where
  enough : peak hist ≤ h.numPages * h.slotsPerPage
  needed : ∀ n, h.numPages = n + 1 → n * h.slotsPerPage < peak hist

theorem Dense.numPages_eq {hdr : RecordFileHeader} (hd : Dense hdr h)
    (hpos : 0 < hdr.slotsPerPage) :
    hdr.numPages = (peak h + hdr.slotsPerPage - 1) / hdr.slotsPerPage := by
  obtain ⟨henough, hneeded⟩ := hd
  cases hn : hdr.numPages with
  | zero =>
      rw [hn, Nat.zero_mul, Nat.le_zero] at henough
      rw [henough, Nat.zero_add, Nat.div_eq_of_lt (by omega)]
  | succ n =>
      have hlt := hneeded n hn
      rw [hn, Nat.succ_mul] at henough
      refine (Nat.div_eq_of_lt_le ?_ ?_).symm
      · rw [Nat.succ_mul]
        omega
      · rw [Nat.succ_mul, Nat.succ_mul]
        omega

/-- The layout depends on the record size alone. -/
theorem Implements.slots_eq {t : Opened I} {h' : List (Op × Reply)} {pages' : Nat → PageData}
    {chain' : List Nat} (hi : Implements s recordSize h pages chain)
    (hi' : Implements t recordSize h' pages' chain') :
    t.file.header.slotsPerPage = s.file.header.slotsPerPage := by
  have hs : computeSlotsPerPage s.file.header.recordSize = .ok s.file.header.slotsPerPage :=
    hi.holds.wf.fits
  have ht : computeSlotsPerPage t.file.header.recordSize = .ok t.file.header.slotsPerPage :=
    hi'.holds.wf.fits
  rw [hi.size] at hs
  rw [hi'.size, hs] at ht
  exact (Except.ok.inj ht).symm

theorem Implements.step_dense (hi : Implements s recordSize h pages chain)
    (hn : s.file.header.numPages < 2 ^ 31) (hd : Dense s.file.header h) (op : Op) :
    Dense (step s op).1.file.header ((op, (step s op).2) :: h) := by
  obtain ⟨hans, hgrows, pages', chain', hi'⟩ := step_simulates hi hn op
  have hslots := hi.slots_eq hi'
  have hcard : (liveRids ((op, (step s op).2) :: h)).card ≤ _ :=
    Finset.card_le_card hi'.subset_slots
  rw [RecordFileHeader.card_slots] at hcard
  have hpeak : peak h ≤ peak ((op, (step s op).2) :: h) := Nat.le_max_left _ _
  by_cases hsame : (step s op).1.file.header.numPages = s.file.header.numPages
  · refine ⟨Nat.max_le.mpr ⟨?_, hcard⟩, fun n hn => ?_⟩
    · rw [hsame, hslots]
      exact hd.enough
    · rw [hslots]
      exact Nat.lt_of_lt_of_le (hd.needed n (hsame ▸ hn)) hpeak
  · -- the file has grown, so every slot was taken and one more is
    have hins : chain = [] ∧ ∃ data, op = .insert data := by
      by_contra hno
      refine hsame (hi.step_numPages op fun hc data hop => hno ⟨hc, data, hop⟩)
    obtain ⟨rfl, data, rfl⟩ := hins
    by_cases hlen : data.length = recordSize
    · rw [Answers, if_pos hlen] at hans
      obtain ⟨rid, hr, hnone⟩ := hans
      have hfull : (liveRids h).card = s.file.header.numPages * s.file.header.slotsPerPage := by
        rw [hi.slots_taken, RecordFileHeader.card_slots]
      have hnew : (liveRids ((.insert data, (step s (.insert data)).2) :: h)).card =
          (liveRids h).card + 1 := by
        rw [hr]
        exact Finset.card_insert_of_notMem fun hm => mem_liveRids.mp hm hnone
      have hmore : s.file.header.numPages < (step s (.insert data)).1.file.header.numPages := by
        by_contra hle
        have := Nat.mul_le_mul_right s.file.header.slotsPerPage (Nat.not_lt.mp hle)
        rw [hslots] at hcard
        omega
      refine ⟨Nat.max_le.mpr ⟨?_, hcard⟩, fun n hn => ?_⟩
      · rw [hslots]
        exact Nat.le_trans hd.enough (Nat.mul_le_mul_right _ (Nat.le_of_lt hmore))
      · obtain rfl : n = s.file.header.numPages := by omega
        have hle := card_le_peak ((.insert data, (step s (.insert data)).2) :: h)
        rw [hslots]
        omega
    · refine absurd ?_ hsame
      refine reply_of_wp (R := fun t _ => t.file.header.numPages = _)
        (insert_wrongLength (hi.size ▸ hlen))
        (fun _ _ => False.elim) ?_
      rintro _ _ ⟨-, rfl⟩
      rfl

end Redbase.Record
