import Redbase.Record.Lemmas.Trace

/-!
# Links that do not fit

The link to a page with an id of `2^31` or more is negative. On a file with one slot in a page,
every page is refused whose link leads to such a page.
-/

namespace Redbase.Record

open Prog Bytes Page RecordFile Function Linked

variable {I : Type} [ReliableIo I] {cap p q : Nat} {s : RecordFile I cap} {pages : Nat → PageData}
  {chain : List Nat} {h : RecordFileHeader} {data : List UInt8}

/-! ## One slot in a page -/

theorem freeCount_one (one : h.slotsPerPage = 1) (hp : h.HasPage p) :
    0 < freeCount h (pages p) ↔ lookup h pages ⟨p, 0⟩ = none := by
  have hpage : h.HasPage (Rid.mk p 0).pageId := hp
  have hslot : (Rid.mk p 0).slotId < h.slotsPerPage := one ▸ Nat.one_pos
  rw [lookup_of_hasPage hpage hslot, freeCount, Bitmap.count_pos_iff]
  show (∃ i < h.slotsPerPage, freeAt h (pages p) i = true) ↔ _
  rw [one]
  constructor
  · rintro ⟨i, hi, hfree⟩
    obtain rfl : i = 0 := by omega
    rw [if_pos hfree]
  · intro hn
    refine ⟨0, Nat.one_pos, ?_⟩
    by_contra hused
    rw [if_neg hused] at hn
    cases hn

/-- A page that is used is not linked, and so not refused. -/
theorem WellFormed.readable_of_used (hw : WellFormed h pages chain) (one : h.slotsPerPage = 1)
    (hp : h.HasPage p) (hl : lookup h pages ⟨p, 0⟩ ≠ none) : Readable h (pages p) := by
  refine ⟨hw.page p hp, ?_⟩
  have h0 : freeCount h (pages p) = 0 := Nat.eq_zero_of_not_pos fun hpos =>
    hl ((freeCount_one one hp).mp hpos)
  rw [(hw.page p hp).full h0]

/-- Of two free pages with large ids, the first in the chain is refused. -/
theorem WellFormed.unreadable_of_free (hw : WellFormed h pages chain) (one : h.slotsPerPage = 1)
    (hn : h.numPages + 2 < 2 ^ 32) (hpq : p ≠ q) (hp : h.HasPage p) (hq : h.HasPage q)
    (hfree : ∀ r, h.HasPage r → (lookup h pages ⟨r, 0⟩ = none ↔ r = p ∨ r = q)) (hlp : 2 ^ 31 ≤ p)
    (hlq : 2 ^ 31 ≤ q) :
    ∃ r, Unreadable h pages r := by
  have hmem : ∀ r, r ∈ chain ↔ r = p ∨ r = q := fun r => by
    rw [hw.mem_iff]
    constructor
    · rintro ⟨hr, hpos⟩
      exact (hfree r hr).mp ((freeCount_one one hr).mp hpos)
    · rintro (rfl | rfl)
      · exact ⟨hp, (freeCount_one one hp).mpr ((hfree _ hp).mpr (Or.inl rfl))⟩
      · exact ⟨hq, (freeCount_one one hq).mpr ((hfree _ hq).mpr (Or.inr rfl))⟩
  obtain ⟨a, b, rest, rfl⟩ : ∃ a b rest, chain = a :: b :: rest := by
    match chain, hmem p, hmem q with
    | [], hp', _ => exact absurd (hp'.mpr (Or.inl rfl)) List.not_mem_nil
    | [a], hp', hq' =>
        have h₁ := List.mem_singleton.mp (hp'.mpr (Or.inl rfl))
        have h₂ := List.mem_singleton.mp (hq'.mpr (Or.inr rfl))
        exact absurd (h₁.trans h₂.symm) hpq
    | a :: b :: rest, _, _ => exact ⟨a, b, rest, rfl⟩
  have ha := hw.mem_hasPage List.mem_cons_self
  have hb : b ∈ a :: b :: rest := List.mem_cons_of_mem _ List.mem_cons_self
  refine ⟨a, ha, fun hr => ?_⟩
  have hge := hr.next_ge
  rw [hw.links.tail.head_eq] at hge
  have hlarge : 2 ^ 31 ≤ b := by
    rcases (hmem b).mp hb with rfl | rfl
    · exact hlp
    · exact hlq
  have hle := (hw.mem_hasPage hb).2
  unfold asI32 recordPageFull at hge
  rw [if_neg (Nat.not_lt.mpr hlarge)] at hge
  omega

/-! ## A file of used pages -/

/-- Every page has one slot, and it is used. -/
structure Full (h : RecordFileHeader) (pages : Nat → PageData) : Prop where
  one : h.slotsPerPage = 1
  used : ∀ p, h.HasPage p → lookup h pages ⟨p, 0⟩ ≠ none

theorem Full.not_unreadable (hf : Full h pages) (hw : WellFormed h pages chain) :
    ¬ ∃ p, Unreadable h pages p := by
  rintro ⟨p, hp, hu⟩
  exact hu (hw.readable_of_used hf.one hp (hf.used p hp))

/-- One record more needs one page more. -/
theorem insert_full (hh : Holds s pages chain) (hf : Full s.header pages)
    (hd : data.length = s.header.recordSize) (hn : s.header.numPages + 2 < 2 ^ 32) :
    wp (RecordFile.insert data)
      (fun rid t => rid = ⟨s.header.numPages + 1, 0⟩ ∧ t.header.numPages = s.header.numPages + 1 ∧
        ∃ pages' chain', Holds t pages' chain' ∧ Stepped s t pages pages' rid (some data) ∧
          Full t.header pages')
      never s := by
  refine wp_mono (insert_spec hh hd) ?_ ?_
  · rintro ⟨p, slot⟩ t ⟨pages', chain', ht, hst, hnone, hle⟩
    have one : t.header.slotsPerPage = 1 := hst.layout.slots.trans hf.one
    have hsome : lookup t.header pages' ⟨p, slot⟩ = some data := by rw [hst.lookup, update_self]
    obtain ⟨hp, hslot⟩ : t.header.HasPage p ∧ slot < t.header.slotsPerPage :=
      hasPage_of_lookup hsome
    obtain rfl : slot = 0 := by omega
    have hnew : ¬ s.header.HasPage p := fun hp' => hf.used p hp' hnone
    unfold RecordFileHeader.HasPage at hp hnew
    have hpn : p = s.header.numPages + 1 := by omega
    subst hpn
    refine ⟨rfl, by omega, pages', chain', ht, hst, one, fun r hr => ?_⟩
    rw [hst.lookup]
    rcases eq_or_ne r (s.header.numPages + 1) with rfl | hne
    · rw [update_self]
      exact Option.some_ne_none _
    · rw [update_of_ne (by rintro ⟨⟩; exact hne rfl)]
      refine hf.used r ?_
      unfold RecordFileHeader.HasPage at hr ⊢
      omega
  · rintro e t ⟨-, hlim | hu⟩
    · omega
    · exact hf.not_unreadable hh.wf hu

/-! ## A run that gets there -/

section Traces

variable {pageFile : PageFile I} {recordSize : Nat} {o : Opened I} {hist : List (Op × Reply)}

/-- One page more is used. -/
theorem Implements.fill (hi : Implements o recordSize hist pages chain)
    (hf : Full o.file.header pages) (hd : data.length = recordSize)
    (hn : o.file.header.numPages + 2 < 2 ^ 32) :
    ∃ pages' chain', Implements (step o (.insert data)).1 recordSize
        ((.insert data, (step o (.insert data)).2) :: hist) pages' chain' ∧
      Full (step o (.insert data)).1.file.header pages' ∧
      (step o (.insert data)).1.file.header.numPages = o.file.header.numPages + 1 := by
  refine reply_of_wp (R := fun t r => ∃ pages' chain',
    Implements t recordSize ((.insert data, r) :: hist) pages' chain' ∧ Full t.file.header pages' ∧
      t.file.header.numPages = o.file.header.numPages + 1)
    (insert_full hi.holds hf (hd.trans hi.size.symm) hn) ?_ fun _ _ => False.elim
  rintro rid file ⟨-, hpages, pages', chain', hh, hst, hf'⟩
  refine ⟨pages', chain', ⟨hh, hst.layout.size.trans hi.size, ?_⟩, hf', hpages⟩
  rw [hst.lookup, hi.entries]
  rfl

/-- A run to a file of any number of pages, all of them used. -/
theorem Trace.grow (ht : Trace pageFile recordSize hist o)
    (hi : Implements o recordSize hist pages chain) (hf : Full o.file.header pages) (n : Nat)
    (hn : o.file.header.numPages + n + 1 < 2 ^ 32) :
    ∃ hist' o' pages' chain', Trace pageFile recordSize hist' o' ∧
      Implements o' recordSize hist' pages' chain' ∧
      Full o'.file.header pages' ∧ o'.file.header.numPages = o.file.header.numPages + n := by
  induction n with
  | zero => exact ⟨hist, o, pages, chain, ht, hi, hf, rfl⟩
  | succ n ih =>
      obtain ⟨hist, o', pages, chain, ht, hi, hf, hcount⟩ := ih (by omega)
      obtain ⟨pages', chain', hi', hf', hcount'⟩ :=
        hi.fill hf (List.length_replicate (a := (0 : UInt8))) (by omega)
      exact ⟨_, _, pages', chain', ht.step _, hi', hf', by omega⟩

/-- A used page is freed. -/
theorem Implements.free (hi : Implements o recordSize hist pages chain)
    (one : o.file.header.slotsPerPage = 1) (hp : o.file.header.HasPage p)
    (hl : lookup o.file.header pages ⟨p, 0⟩ ≠ none) :
    ∃ pages' chain', Implements (step o (.delete ⟨p, 0⟩)).1 recordSize
        ((.delete ⟨p, 0⟩, (step o (.delete ⟨p, 0⟩)).2) :: hist) pages' chain' ∧
      (step o (.delete ⟨p, 0⟩)).1.file.header.slotsPerPage = 1 ∧
      (step o (.delete ⟨p, 0⟩)).1.file.header.numPages = o.file.header.numPages ∧
      lookup (step o (.delete ⟨p, 0⟩)).1.file.header pages' =
        update (lookup o.file.header pages) ⟨p, 0⟩ none := by
  refine reply_of_wp (R := fun t r => ∃ pages' chain',
    Implements t recordSize ((.delete ⟨p, 0⟩, r) :: hist) pages' chain' ∧
      t.file.header.slotsPerPage = 1 ∧ t.file.header.numPages = o.file.header.numPages ∧
      lookup t.file.header pages' = update (lookup o.file.header pages) ⟨p, 0⟩ none)
    (delete_spec hi.holds) ?_ ?_
  · rintro _ file ⟨pages', chain', hh, hst, -, hfreed⟩
    refine ⟨pages', chain', ⟨hh, hst.layout.size.trans hi.size, ?_⟩, hst.layout.slots.trans one,
      hfreed.numPages, hst.lookup⟩
    rw [hst.lookup, hi.entries]
    rfl
  · rintro e file ⟨-, ⟨-, hnone⟩ | hu⟩
    · exact absurd hnone hl
    · exact absurd (hi.holds.wf.readable_of_used one hp hl) hu.2

/-- A file of one-slot pages grows until its ids do not fit, and two of these pages are freed. -/
theorem exists_unreadable (ht : Trace pageFile recordSize hist o)
    (hi : Implements o recordSize hist pages chain) (hf : Full o.file.header pages)
    (hn : o.file.header.numPages = 0) :
    ∃ hist' o' pages' chain', Trace pageFile recordSize hist' o' ∧
      Implements o' recordSize hist' pages' chain' ∧
      ∃ p, Unreadable o'.file.header pages' p := by
  obtain ⟨h₀, o₀, pages₀, chain₀, ht₀, hi₀, hf₀, hn₀⟩ := ht.grow hi hf (2 ^ 31 + 1) (by omega)
  have hp : o₀.file.header.HasPage (2 ^ 31) := ⟨by omega, by omega⟩
  have hq : o₀.file.header.HasPage (2 ^ 31 + 1) := ⟨by omega, by omega⟩
  obtain ⟨pages₁, chain₁, hi₁, one₁, hn₁, hl₁⟩ := hi₀.free hf₀.one hp (hf₀.used _ hp)
  have hq₁ : (step o₀ (.delete ⟨2 ^ 31, 0⟩)).1.file.header.HasPage (2 ^ 31 + 1) :=
    ⟨by omega, by omega⟩
  obtain ⟨pages₂, chain₂, hi₂, one₂, hn₂, hl₂⟩ := hi₁.free one₁ hq₁ (by
    rw [hl₁, update_of_ne (by simp)]
    exact hf₀.used _ hq)
  refine ⟨_, _, pages₂, chain₂, (ht₀.step _).step _, hi₂, ?_⟩
  refine hi₂.holds.wf.unreadable_of_free (p := 2 ^ 31) (q := 2 ^ 31 + 1) one₂ (by omega) (by omega)
    ⟨by omega, by omega⟩ ⟨by omega, by omega⟩ (fun r hr => ?_) le_rfl (by omega)
  rw [hl₂, hl₁]
  rcases eq_or_ne r (2 ^ 31 + 1) with rfl | hrq
  · simp
  · rw [update_of_ne (by rintro ⟨⟩; exact hrq rfl)]
    rcases eq_or_ne r (2 ^ 31) with rfl | hrp
    · simp
    · rw [update_of_ne (by rintro ⟨⟩; exact hrp rfl)]
      refine iff_of_false (hf₀.used r ?_) (by omega)
      unfold RecordFileHeader.HasPage at hr ⊢
      omega

end Traces

end Redbase.Record
