import Redbase.Page.Lemmas.Reachable
import Redbase.Record.Lemmas.Lifetime
import Redbase.Record.Lemmas.Filtered
import Redbase.Record.Invariant
import Redbase.Buffer.Lemmas.Allocation

/-!
# A record file over any page file

What the pages hold need not make sense, and neither need the free list of the page file. As long as
no page is allocated, the pool is the array of the pages in use: reads return what is there, and
every call that does not return reports an error.
-/

namespace Redbase.Record

open Prog Bytes Page Buffer BufferPoolState Function RecordFile RecordScan

variable {I : Type} [ReliableIo I] {cap p fileId k : Nat} {pool : BufferPoolState (PageFile I) cap}
  {pages : Nat → Option PageData} {hd : FileHeader} {α : Type}

/-- The pages of the one file, none of another one. -/
def onlyPages (fileId : Nat) (pages : Nat → Option PageData) (key : BufferKey) : Option PageData :=
  if key.fileId = fileId then pages key.pageId else none

/-- No guard is alive, and the pool holds the pages of the file that are in use. -/
structure Serving (pool : BufferPoolState (PageFile I) cap) (fileId : Nat) (hd : FileHeader)
    (pages : Nat → Option PageData) : Prop where
  inv : Settled pool []
  backed : Backed pool (onlyPages fileId pages)
  header : headers pool fileId = some hd

theorem onlyPages_write (bytes : PageData) :
    update (onlyPages fileId pages) ⟨fileId, p⟩ (some bytes) =
      onlyPages fileId (update pages p (some bytes)) := by
  funext key
  rcases eq_or_ne key ⟨fileId, p⟩ with rfl | hne
  · simp [onlyPages]
  · rw [update_of_ne hne]
    unfold onlyPages
    by_cases hk : key.fileId = fileId
    · have hpage : key.pageId ≠ p := fun he => hne (by cases key; cases hk; cases he; rfl)
      rw [update_of_ne hpage]
    · rw [if_neg hk, if_neg hk]

namespace Serving

/-- While nothing is pinned, a page is refused with an error, and only if it is not in use. -/
theorem refused (h : Serving pool fileId hd pages) {why : Stop BufferPoolError}
    (hw : GetFails pool (onlyPages fileId pages) ⟨fileId, p⟩ why) :
    Reports why ∧ (0 < cap → pages p = none) := by
  rcases hw with ⟨rfl, hp⟩ | ⟨rfl, hf⟩ | ⟨rfl, hm⟩ | ⟨-, f, hf⟩
  · exact ⟨⟨_, rfl⟩, fun hc => absurd (h.inv.pinCount_eq ⟨0, hc⟩) (hp _)⟩
  · have hh := h.header
    rw [headers, hf] at hh
    cases hh
  · rw [onlyPages, if_pos rfl] at hm
    exact ⟨⟨_, rfl⟩, fun _ => hm⟩
  · rw [h.inv.pinCount_eq] at hf
    simp at hf

/-- The guard's bytes are those of its page. -/
theorem data_eq {g : Guard cap} {mem : BufferKey → Option PageData} (hi : Settled pool [g])
    (hb : Backed pool mem) : mem g.key = some (pool.frames g.frameId).data :=
  hb.cached g.frameId g.key hi.key_eq

theorem release {g : Guard cap} (hi : Settled pool [g]) (hb : Backed pool (onlyPages fileId pages))
    (hh : headers pool fileId = some hd) : Serving (pool.unpinFrame g.frameId) fileId hd pages :=
  ⟨hi.unpin, hb.unpin, (congrFun (Quiet.headers_unpin _) _).trans hh⟩

theorem getPage (h : Serving pool fileId hd pages) (p : Nat) :
    wp (getPage fileId p)
      (fun g t => pages p = some (t.frames g.frameId).data ∧
        Serving (t.unpinFrame g.frameId) fileId hd pages)
      (fun e t => Serving t fileId hd pages ∧ Reports e ∧ (0 < cap → pages p = none)) pool := by
  refine wp_mono (getPage_settled h.inv h.backed fileId p) ?_ ?_
  · rintro g t ⟨hi, hb, hkey, hh⟩
    have hdata := data_eq hi hb
    rw [hkey, onlyPages, if_pos rfl] at hdata
    exact ⟨hdata, release hi hb ((congrFun hh _).trans h.header)⟩
  · rintro e t ⟨hi, ⟨hb, hh⟩, he⟩
    exact ⟨⟨hi, hb, (congrFun hh _).trans h.header⟩, h.refused he⟩

/-- The write guard on page `p` is the only guard. -/
structure Held (pool : BufferPoolState (PageFile I) cap) (g : Guard cap) (fileId p : Nat)
    (hd : FileHeader) (pages : Nat → Option PageData) : Prop where
  inv : Settled pool [g]
  backed : Backed pool (onlyPages fileId pages)
  header : headers pool fileId = some hd
  key : g.key = ⟨fileId, p⟩
  dirty : (pool.frames g.frameId).dirty = true

theorem getPageMut (h : Serving pool fileId hd pages) (p : Nat) :
    wp (getPageMut fileId p)
      (fun g t => pages p = some (t.frames g.frameId).data ∧ Held t g fileId p hd pages)
      (fun e t => Serving t fileId hd pages ∧ Reports e ∧ (0 < cap → pages p = none)) pool := by
  refine wp_mono (getPageMut_settled h.inv h.backed fileId p) ?_ ?_
  · rintro g t ⟨hi, hb, ⟨hkey, hdirty⟩, hh⟩
    have hdata := data_eq hi hb
    rw [hkey, onlyPages, if_pos rfl] at hdata
    exact ⟨hdata, hi, hb, (congrFun hh _).trans h.header, hkey, hdirty⟩
  · rintro e t ⟨hi, ⟨hb, hh⟩, he⟩
    exact ⟨⟨hi, hb, (congrFun hh _).trans h.header⟩, h.refused he⟩

/-- The guard is dropped and its page has new bytes. -/
theorem Held.close {g : Guard cap} (h : Held pool g fileId p hd pages) (bytes : PageData) :
    Serving ((pool.modifyFrame g.frameId fun frame => { frame with data := bytes }).unpinFrame
        g.frameId) fileId hd
      (update pages p (some bytes)) := by
  obtain ⟨hi, hb⟩ := h.inv.write h.backed h.dirty bytes
  rw [h.key, onlyPages_write] at hb
  exact release hi hb h.header

end Serving

/-! ## A page held through a guard -/

section Guards

variable {s : RecordFile I cap}

/-- The pool after page `p` was handed out to `s` and got `bytes`. -/
structure Grows (s : RecordFile I cap) (pool : BufferPoolState (PageFile I) cap) (hd : FileHeader)
    (pages : Nat → Option PageData) (p : Nat) (bytes : PageData) : Prop where
  serving : ∃ hd', Serving pool s.fileId hd' (update pages p (some bytes)) ∧ p < hd'.numPages ∧
    hd.numPages ≤ hd'.numPages
  caches : CachesOnly s.pool pool [⟨s.fileId, p⟩]

theorem withPage_serving (h : Serving s.pool s.fileId hd pages) (p : Nat)
    (body : PageData → Except RecordError α) :
    wp (withPage p body)
      (fun a t => (∃ pool, t = { s with pool } ∧ Serving pool s.fileId hd pages) ∧
        ∃ bytes, pages p = some bytes ∧ body bytes = .ok a)
      (fun e t => (∃ pool, t = { s with pool } ∧ Serving pool s.fileId hd pages) ∧ Reports e ∧
        (0 < cap → ∀ bytes, pages p = some bytes → ∃ e', body bytes = .error e')) s := by
  have hget := h.getPage p
  unfold wp at hget ⊢
  unfold withPage
  cases hg : BufferPoolState.getPage s.fileId p s.pool with
  | error e pool =>
      rw [hg] at hget
      obtain ⟨hs, ⟨e', rfl⟩, hnone⟩ := hget
      refine ⟨⟨pool, rfl, hs⟩, ⟨_, rfl⟩, fun hc bytes hb => ?_⟩
      rw [hnone hc] at hb
      cases hb
  | ok g pool =>
      rw [hg] at hget
      obtain ⟨hdata, hs⟩ := hget
      cases hb : body (pool.frames g.frameId).data with
      | ok a =>
          simp only [hb]
          exact ⟨⟨_, rfl, hs⟩, _, hdata, hb⟩
      | error e =>
          simp only [hb]
          refine ⟨⟨_, rfl, hs⟩, ⟨e, rfl⟩, fun _ bytes hbytes => ⟨e, ?_⟩⟩
          rw [hdata, Option.some.injEq] at hbytes
          rw [← hbytes, hb]

/-- What the body leaves of the page and of the fields is there afterwards, whether it fails or
not. -/
theorem withPageMut_serving (h : Serving s.pool s.fileId hd pages) (p : Nat) (body : PageM α)
    {Q : α → RecordFile I cap → Prop} {E : Stop RecordError → RecordFile I cap → Prop}
    (hget : ∀ pool, Serving pool s.fileId hd pages → CachesOnly s.pool pool [⟨s.fileId, p⟩] →
      ∀ e, Reports e → (0 < cap → pages p = none) → E e { s with pool })
    (hbody : ∀ bytes, pages p = some bytes →
      wp body
        (fun a t => ∀ pool, Serving pool s.fileId hd (update pages p (some t.bytes)) →
          CachesOnly s.pool pool [⟨s.fileId, p⟩] → Q a ⟨pool, s.fileId, t.header, t.headerDirty⟩)
        (fun e t => ∀ pool, Serving pool s.fileId hd (update pages p (some t.bytes)) →
          CachesOnly s.pool pool [⟨s.fileId, p⟩] →
            E (.error e) ⟨pool, s.fileId, t.header, t.headerDirty⟩)
        ⟨bytes, s.header, s.headerDirty⟩) :
    wp (withPageMut (getPageMut s.fileId p) fun _ => body) Q E s := by
  refine wp_withPageMut_iff.mpr
    (wp_mono (wp_and (h.getPageMut p) (getPageMut_caches h.inv s.fileId p)) ?_ ?_)
  · rintro g pool ⟨⟨hdata, hheld⟩, hc⟩
    refine wp_mono (hbody _ hdata) (fun a t ht => ?_) fun e t ht => ?_
    · exact ht _ (hheld.close t.bytes) (hc.modifyFrame.unpin g.frameId)
    · exact ht _ (hheld.close t.bytes) (hc.modifyFrame.unpin g.frameId)
  · rintro e pool ⟨⟨hs, ⟨e', rfl⟩, hnone⟩, hc⟩
    exact hget pool hs hc _ ⟨_, rfl⟩ hnone

/-- The body runs on the page that the page file hands out, which is not cached. -/
theorem newPage_serving (h : Serving s.pool s.fileId hd pages) {file : PageFile I}
    (hfile : s.pool.files s.fileId = some file)
    (hk : s.pool.pageTable ⟨s.fileId, nextPageId file⟩ = none)
    {body : Nat → PageM α} {Q : α → RecordFile I cap → Prop}
    {E : Stop RecordError → RecordFile I cap → Prop}
    (hE : ∀ pool, Serving pool s.fileId hd pages → CachesOnly s.pool pool [] → ∀ e,
      E e { s with pool })
    (hbody : wp (body (nextPageId file))
      (fun a t => ∀ pool, Grows s pool hd pages (nextPageId file) t.bytes →
        Q a ⟨pool, s.fileId, t.header, t.headerDirty⟩)
      (fun e t => ∀ pool, Grows s pool hd pages (nextPageId file) t.bytes →
        E (.error e) ⟨pool, s.fileId, t.header, t.headerDirty⟩) ⟨Block.zero _, s.header,
          s.headerDirty⟩) :
    wp (withPageMut (allocatePage s.fileId) body) Q E s := by
  refine wp_withPageMut_iff.mpr (wp_mono (allocatePage_settled h.inv h.backed hfile hk) ?_ ?_)
  · rintro g pool ⟨hi, hb, hkey, hdirty, ⟨hd₀, hd', hh₀, hh, hlt, hle⟩, hc⟩
    rw [hkey, onlyPages_write] at hb
    have hheld : Serving.Held pool g s.fileId (nextPageId file) hd' _ := ⟨hi, hb, hh, hkey, hdirty⟩
    have hzero := Serving.data_eq hi hb
    rw [hkey, onlyPages, if_pos rfl, update_self, Option.some.injEq] at hzero
    have hclose : ∀ bytes, Grows s _ hd pages (nextPageId file) bytes := fun bytes => by
      have hs := hheld.close bytes
      rw [update_idem] at hs
      refine ⟨⟨hd', hs, hlt, ?_⟩, (hkey ▸ hc.modifyFrame).unpin g.frameId⟩
      rw [h.header] at hh₀
      cases hh₀
      exact hle
    rw [← hzero, hkey]
    exact wp_mono hbody (fun a t ht => ht _ (hclose t.bytes)) fun e t ht => ht _ (hclose t.bytes)
  · rintro e pool ⟨hi, hc, hb, hh⟩
    exact hE pool ⟨hi, hb, (congrFun hh _).trans h.header⟩ hc _

end Guards

/-! ## The records -/

section Records

variable {h : RecordFileHeader} {bytes : PageData} {rid : Rid} {record : Record}

theorem toOption_eq_some {ε β : Type} {x : Except ε β} {b : β} :
    x.toOption = some b ↔ x = .ok b := by
  cases x <;> simp [Except.toOption]

theorem recordIn_eq_some :
    recordIn h pages rid = some record ↔
      h.HasPage rid.pageId ∧ ∃ bytes, pages rid.pageId = some bytes ∧
        getFrom h rid bytes = .ok record := by
  unfold recordIn
  split
  next hp => simp only [hp, true_and, Option.bind_eq_some_iff, toOption_eq_some]
  next hp => simp only [hp, false_and, reduceCtorEq]

/-- What the checks of a page header ask for. -/
structure RecordPageHeader.Passes (ph : RecordPageHeader) (slotsPerPage : Nat) : Prop where
  numSlots : ph.numSlots = slotsPerPage
  free_le : ph.numFreeSlots ≤ slotsPerPage
  next_ge : recordPageFull ≤ ph.nextFreePage

theorem RecordPageHeader.validate_eq_ok_iff {ph : RecordPageHeader} {slots : Nat} {u : Unit} :
    ph.validate slots = .ok u ↔ ph.Passes slots := by
  simp only [validate, throw_bind, throw_eq_ok, pure_eq_ok, ite_eq_ok, if_false_left]
  constructor
  · rintro ⟨hs, hf, hn, -⟩
    have hs := Decidable.not_not.mp hs
    exact ⟨hs, hs ▸ Nat.not_lt.mp hf, Int.not_lt.mp hn⟩
  · rintro ⟨rfl, hf, hn⟩
    exact ⟨by simp, Nat.not_lt.mpr hf, Int.not_lt.mpr hn, trivial⟩

theorem readPageHeader_eq_ok {ph : RecordPageHeader} :
    readPageHeader h bytes = .ok ph ↔ (headerOf bytes).Passes h.slotsPerPage ∧
      ph = headerOf bytes := by
  rw [readPageHeader_eq]
  simp only [bind_eq_ok, pure_eq_ok, RecordPageHeader.validate_eq_ok_iff, exists_const,
    eq_comm (a := ph)]

theorem ensureSlotUsed_eq_ok {ph : RecordPageHeader} (hp : ph.Passes h.slotsPerPage) {u : Unit} :
    ensureSlotUsed h rid ph bytes = .ok u ↔ rid.slotId < h.slotsPerPage ∧
      freeAt h bytes rid.slotId = false := by
  simp only [ensureSlotUsed, throw_bind, throw_eq_ok, pure_eq_ok, ite_eq_ok,
    if_false_left, hp.numSlots, Nat.not_le, ge_iff_le, Bool.not_eq_true, and_true]
  exact Iff.rfl

theorem getFrom_eq_ok (hf : h.Fits) :
    getFrom h rid bytes = .ok record ↔
      (headerOf bytes).Passes h.slotsPerPage ∧ rid.slotId < h.slotsPerPage ∧
        freeAt h bytes rid.slotId = false ∧ record = ⟨rid, slotBytes h bytes rid.slotId⟩ := by
  unfold getFrom
  simp only [bind_eq_ok, readPageHeader_eq_ok, pure_eq_ok]
  constructor
  · rintro ⟨_, ⟨hp, rfl⟩, _, hu, start, hstart, rfl⟩
    obtain ⟨hs, hfree⟩ := (ensureSlotUsed_eq_ok hp).mp hu
    rw [hf.recordRange_eq hs] at hstart
    cases hstart
    exact ⟨hp, hs, hfree, rfl⟩
  · rintro ⟨hp, hs, hfree, rfl⟩
    exact ⟨_, ⟨hp, rfl⟩, (), (ensureSlotUsed_eq_ok hp).mpr ⟨hs, hfree⟩, _,
      hf.recordRange_eq hs, rfl⟩

/-- What a scan reads from a slot, `get` reads too. -/
theorem readIfUsed_eq_ok (hf : h.Fits) {r : Option Record} (hr : readIfUsed h rid bytes = .ok r) :
    r = (getFrom h rid bytes).toOption := by
  simp only [readIfUsed, throw_bind, bind_eq_ok, readPageHeader_eq_ok, throw_eq_ok,
    pure_eq_ok, ite_eq_ok, if_false_left] at hr
  obtain ⟨_, ⟨hp, rfl⟩, hs, hr⟩ := hr
  rw [hp.numSlots, ge_iff_le, Nat.not_le] at hs
  split at hr
  next hfree =>
    subst hr
    refine (Option.eq_none_iff_forall_ne_some.mpr fun record hg => ?_).symm
    obtain ⟨-, -, hused, -⟩ := (getFrom_eq_ok hf).mp (toOption_eq_some.mp hg)
    exact absurd (hfree.symm.trans hused) (by simp)
  next hfree =>
    obtain ⟨start, hstart, rfl⟩ := hr
    rw [hf.recordRange_eq hs] at hstart
    cases hstart
    exact (toOption_eq_some.mpr
      ((getFrom_eq_ok hf).mpr ⟨hp, hs, Bool.not_eq_true _ ▸ hfree, rfl⟩)).symm

theorem recordIn_of_page (hp : h.HasPage rid.pageId) (hb : pages rid.pageId = some bytes) :
    recordIn h pages rid = (getFrom h rid bytes).toOption := by
  unfold recordIn
  rw [if_pos hp, hb]
  rfl

theorem length_of_recordIn (hf : h.Fits) (hr : recordIn h pages rid = some record) :
    record.data.length = h.recordSize := by
  obtain ⟨-, bytes, -, hg⟩ := recordIn_eq_some.mp hr
  obtain ⟨-, hs, -, rfl⟩ := (getFrom_eq_ok hf).mp hg
  exact bytes.length_read (hf.slot_le hs)

/-! ## Methods on a page that holds anything -/

/-- The checks that `update` and `delete` make of a page. -/
theorem slotChecks_cases (h : RecordFileHeader) (rid : Rid) (bytes : PageData) :
    (readPageHeader h bytes = .ok (headerOf bytes) ∧ (headerOf bytes).Passes h.slotsPerPage ∧
        ensureSlotUsed h rid (headerOf bytes) bytes = .ok () ∧ rid.slotId < h.slotsPerPage ∧
          freeAt h bytes rid.slotId = false) ∨
      (∃ e, readPageHeader h bytes = .error e) ∨
      (readPageHeader h bytes = .ok (headerOf bytes) ∧ ∃ e,
        ensureSlotUsed h rid (headerOf bytes) bytes = .error e) := by
  cases hr : readPageHeader h bytes with
  | error e => exact Or.inr (Or.inl ⟨e, rfl⟩)
  | ok ph =>
      obtain ⟨hp, rfl⟩ := readPageHeader_eq_ok.mp hr
      cases hu : ensureSlotUsed h rid (headerOf bytes) bytes with
      | error e => exact Or.inr (Or.inr ⟨rfl, e, rfl⟩)
      | ok u =>
          obtain ⟨hs, hfree⟩ := (ensureSlotUsed_eq_ok hp).mp hu
          exact Or.inl ⟨rfl, hp, rfl, hs, hfree⟩

/-- The slot of a used record on a page whose header passes its checks. -/
structure UsedSlot (h : RecordFileHeader) (bytes : PageData) (rid : Rid) : Prop where
  passes : (headerOf bytes).Passes h.slotsPerPage
  slot_lt : rid.slotId < h.slotsPerPage
  used : freeAt h bytes rid.slotId = false

/-- `update` fails before it changes anything. -/
theorem updateIn_any (hf : h.Fits) (data : List UInt8) (dirty : Bool) :
    wp (updateIn rid data) (fun _ t => t.header = h)
      (fun _ t => t = ⟨bytes, h, dirty⟩) ⟨bytes, h, dirty⟩ := by
  unfold updateIn
  simp only [wp_bind, wp_get]
  rcases slotChecks_cases h rid bytes with ⟨hr, -, hu, hs, -⟩ | ⟨e, hr⟩ | ⟨hr, e, hu⟩
  · simp only [hr, hu, wp_lift_ok, hf.recordRange_eq hs, wp_modify]
    rfl
  · simp only [hr, wp_lift_error]
  · simp only [hr, hu, wp_lift_ok, wp_lift_error]

/-- `delete` fails before it changes anything; else it frees and clears the slot. -/
theorem deleteIn_any (hf : h.Fits) (dirty : Bool) :
    wp (deleteIn rid)
      (fun _ t => UsedSlot h bytes rid ∧ SameLayout h t.header ∧ t.header.numPages = h.numPages ∧
        Stores h bytes t.bytes rid.slotId true (List.replicate h.recordSize 0))
      (fun _ t => t = ⟨bytes, h, dirty⟩) ⟨bytes, h, dirty⟩ := by
  unfold deleteIn
  simp only [wp_bind, wp_get]
  rcases slotChecks_cases h rid bytes with ⟨hr, hp, hu, hs, hfree⟩ | ⟨e, hr⟩ | ⟨hr, e, hu⟩
  · have hlt : (headerOf bytes).numFreeSlots + 1 < 2 ^ 32 := by
      have hle := hp.free_le
      have hslots := hf.slots_le
      simp only [pageDataSize] at hslots
      omega
    simp only [hr, hu, wp_lift_ok, checked_of_lt hlt, wp_bind, wp_modify,
      hf.recordRange_eq hs, wp_ite]
    have hst : ∀ ph, Stores h bytes
        (slotWritten h bytes rid.slotId true (List.replicate h.recordSize 0) ph) rid.slotId
        true (List.replicate h.recordSize 0) :=
          fun ph => stores_slotWritten hf hs List.length_replicate
    split
    · exact ⟨⟨hp, hs, hfree⟩, ⟨rfl, rfl⟩, rfl, hst _⟩
    · exact ⟨⟨hp, hs, hfree⟩, ⟨rfl, rfl⟩, rfl, hst _⟩
  · simp only [hr, wp_lift_error]
  · simp only [hr, hu, wp_lift_ok, wp_lift_error]

/-- A slot that was freed holds no record any more; the other records are what they were. -/
theorem recordIn_of_freed {h' : RecordFileHeader} {bytes' : PageData} {data : List UInt8}
    {rid' : Rid} (hf : h.Fits) (hl : SameLayout h h') (hn : h'.numPages = h.numPages)
    (hu : UsedSlot h bytes rid) (hst : Stores h bytes bytes' rid.slotId true data)
    (hb : pages rid.pageId = some bytes)
    (hr : recordIn h' (update pages rid.pageId (some bytes')) rid' = some record) :
    recordIn h pages rid' = some record := by
  obtain ⟨hp, page, hpage, hg⟩ := recordIn_eq_some.mp hr
  obtain ⟨hpass, hs, hfree, rfl⟩ := (getFrom_eq_ok (hl.fits hf)).mp hg
  rw [hl.slots] at hpass hs
  rw [hl.freeAt_eq] at hfree
  rw [hl.slotBytes_eq]
  have hp' : h.HasPage rid'.pageId := ⟨hp.1, hn ▸ hp.2⟩
  rcases eq_or_ne rid'.pageId rid.pageId with he | hne
  · rw [he, update_self, Option.some.injEq] at hpage
    subst hpage
    rw [hst.free] at hfree
    have hslot : rid'.slotId ≠ rid.slotId := by
      intro hes
      rw [hes, update_self] at hfree
      cases hfree
    rw [update_of_ne hslot] at hfree
    rw [hst.slots, update_of_ne hslot]
    exact recordIn_eq_some.mpr
      ⟨hp', bytes, he ▸ hb, (getFrom_eq_ok hf).mpr ⟨hu.passes, hs, hfree, rfl⟩⟩
  · rw [update_of_ne hne] at hpage
    exact recordIn_eq_some.mpr ⟨hp', page, hpage, (getFrom_eq_ok hf).mpr ⟨hpass, hs, hfree, rfl⟩⟩

end Records

/-! ## Methods -/

section Methods

variable {s t u : RecordFile I cap} {rid : Rid} {data : List UInt8}

/-- `t` is `s` after calls that only read. -/
def ReadOn (s t : RecordFile I cap) (hd : FileHeader) (pages : Nat → Option PageData) : Prop :=
  ∃ pool, t = { s with pool } ∧ Serving pool s.fileId hd pages

theorem ReadOn.header (h : ReadOn s t hd pages) : t.header = s.header := by
  obtain ⟨pool, rfl, -⟩ := h
  rfl

theorem ReadOn.serving (h : ReadOn s t hd pages) : Serving t.pool t.fileId hd pages := by
  obtain ⟨pool, rfl, hs⟩ := h
  exact hs

theorem ReadOn.trans (h₁ : ReadOn s t hd pages) (h₂ : ReadOn t u hd pages) :
    ReadOn s u hd pages := by
  obtain ⟨pool, rfl, -⟩ := h₁
  obtain ⟨pool', rfl, hs⟩ := h₂
  exact ⟨pool', rfl, hs⟩

theorem ReadOn.refl (h : Serving s.pool s.fileId hd pages) : ReadOn s s hd pages := ⟨s.pool, rfl, h⟩

theorem get_serving (h : Serving s.pool s.fileId hd pages) (hf : s.header.Fits) (rid : Rid) :
    wp (RecordFile.get rid) (fun r t => ReadOn s t hd pages ∧ recordIn s.header pages rid = some r)
      (fun e t => ReadOn s t hd pages ∧ Reports e ∧
        (0 < cap → recordIn s.header pages rid = none)) s := by
  unfold RecordFile.get
  simp only [wp_bind, wp_get, validateRid_eq]
  split
  next hv =>
    rw [wp_check_ok]
    refine wp_mono (withPage_serving h rid.pageId (getFrom s.header rid)) ?_ ?_
    · rintro r t ⟨ht, bytes, hb, hr⟩
      exact ⟨ht, recordIn_eq_some.mpr ⟨hv.1, bytes, hb, hr⟩⟩
    · rintro e t ⟨ht, he, hnone⟩
      refine ⟨ht, he, fun hc => Option.eq_none_iff_forall_ne_some.mpr fun r hr => ?_⟩
      obtain ⟨-, bytes, hb, hg⟩ := recordIn_eq_some.mp hr
      obtain ⟨e', he'⟩ := hnone hc bytes hb
      rw [hg] at he'
      cases he'
  next hv =>
    rw [wp_check_error]
    refine ⟨.refl h, ⟨_, rfl⟩, fun _ => Option.eq_none_iff_forall_ne_some.mpr fun r hr => hv ?_⟩
    obtain ⟨hp, bytes, -, hg⟩ := recordIn_eq_some.mp hr
    exact ⟨hp, ((getFrom_eq_ok hf).mp hg).2.1⟩

theorem readRecordIfUsed_serving (h : Serving s.pool s.fileId hd pages) (hf : s.header.Fits)
    (rid : Rid) :
    wp (readRecordIfUsed rid) (fun r t => ReadOn s t hd pages ∧ r = recordIn s.header pages rid)
      (fun e t => ReadOn s t hd pages ∧ Reports e ∧ (0 < cap → s.header.HasPage rid.pageId →
        ∀ bytes, pages rid.pageId = some bytes →
          ∃ e', readIfUsed s.header rid bytes = .error e')) s := by
  unfold readRecordIfUsed
  simp only [wp_bind, wp_get, wp_ite, wp_throw]
  split
  next hout =>
    refine ⟨.refl h, ⟨_, rfl⟩, fun _ hp => ?_⟩
    simp only [headerPageId] at hout
    obtain ⟨h₁, h₂⟩ := hp
    omega
  next hin =>
    simp only [headerPageId, not_or] at hin
    have hp : s.header.HasPage rid.pageId := ⟨Nat.pos_of_ne_zero hin.1, Nat.not_lt.mp hin.2⟩
    refine wp_mono (withPage_serving h rid.pageId (readIfUsed s.header rid)) ?_ ?_
    · rintro r t ⟨ht, bytes, hb, hr⟩
      exact ⟨ht, (readIfUsed_eq_ok hf hr).trans (recordIn_of_page hp hb).symm⟩
    · rintro e t ⟨ht, he, hnone⟩
      exact ⟨ht, he, fun hc _ => hnone hc⟩

theorem update_serving (h : Serving s.pool s.fileId hd pages) (hf : s.header.Fits) (rid : Rid)
    (data : List UInt8) :
    wp (RecordFile.update rid data)
      (fun _ t => data.length = s.header.recordSize ∧ t.header = s.header ∧
        ∃ pages', Serving t.pool t.fileId hd pages')
      (fun e t => ReadOn s t hd pages ∧ Reports e) s := by
  unfold RecordFile.update
  simp only [wp_bind, wp_get, ensureRecordLength_eq]
  split
  next hlen =>
    rw [wp_check_ok]
    cases hv : validateRid s.header rid with
    | error e => exact ⟨.refl h, e, rfl⟩
    | ok u =>
        rw [wp_check_ok]
        refine withPageMut_serving h rid.pageId _ (fun pool hs _ e he _ => ⟨⟨pool, rfl, hs⟩, he⟩)
          fun bytes hb => ?_
        refine wp_mono (updateIn_any hf data s.headerDirty) ?_ ?_
        · exact fun _ t ht pool hs _ => ⟨hlen, ht, _, hs⟩
        · rintro e _ rfl pool hs -
          rw [← hb, update_eq_self] at hs
          exact ⟨⟨pool, rfl, hs⟩, e, rfl⟩
  next hlen => exact ⟨.refl h, _, rfl⟩

theorem delete_serving (h : Serving s.pool s.fileId hd pages) (hf : s.header.Fits) (rid : Rid) :
    wp (delete rid)
      (fun _ t => SameLayout s.header t.header ∧ ∃ pages', Serving t.pool t.fileId hd pages' ∧
        ∀ rid' r, recordIn t.header pages' rid' = some r → recordIn s.header pages rid' = some r)
      (fun e t => ReadOn s t hd pages ∧ Reports e) s := by
  unfold delete
  simp only [wp_bind, wp_get]
  cases hv : validateRid s.header rid with
  | error e => exact ⟨.refl h, e, rfl⟩
  | ok u =>
      rw [wp_check_ok]
      refine withPageMut_serving h rid.pageId _ (fun pool hs _ e he _ => ⟨⟨pool, rfl, hs⟩, he⟩)
        fun bytes hb => ?_
      refine wp_mono (deleteIn_any hf s.headerDirty) ?_ ?_
      · rintro _ t ⟨hu, hl, hn, hst⟩ pool hs -
        exact ⟨hl, _, hs, fun rid' r => recordIn_of_freed hf hl hn hu hst hb⟩
      · rintro e _ rfl pool hs -
        rw [← hb, update_eq_self] at hs
        exact ⟨⟨pool, rfl, hs⟩, e, rfl⟩

end Methods

/-! ## Scans -/

section Scans

variable {sc : RecordScan I cap}

/-- A scan of any file reads the records that are in it; it stops at a page that is refused. -/
theorem reads_serving {s : RecordFile I cap} (hf : s.header.Fits)
    (predicate : List UInt8 → Except RecordError Bool) :
    Reads predicate s.header (fun t : RecordFile I cap => ReadOn s t hd pages)
      (fun e t => ReadOn s t hd pages ∧ Reports e)
      (fun k => recordIn s.header pages (ridAt s.header k))
      (accepted predicate) (fun _ => True) where
  fits := hf
  header _ ht := ht.header
  read t k ht _ := by
    have hread := readRecordIfUsed_serving ht.serving (ht.header.symm ▸ hf) (ridAt s.header k)
    rw [ht.header] at hread
    refine wp_mono hread ?_ ?_
    · rintro r u ⟨hu, rfl⟩
      exact ⟨ht.trans hu, rfl, trivial⟩
    · rintro e u ⟨hu, he, -⟩
      exact ⟨ht.trans hu, he⟩
  accepts t k r ht _ := by
    unfold accepted
    cases predicate r.data with
    | ok b => exact rfl
    | error e => exact ⟨ht, e, rfl⟩

theorem recordIn_of_showing {h : RecordFileHeader} {q : List UInt8 → Bool} {r : Record}
    (hf : h.Fits) (hr : r ∈ showing h (fun k => recordIn h pages (ridAt h k)) q k) :
    recordIn h pages r.rid = some r := by
  simp only [showing, List.mem_filter, List.mem_filterMap] at hr
  obtain ⟨⟨j, -, hj⟩, -⟩ := hr
  obtain ⟨-, bytes, -, hg⟩ := recordIn_eq_some.mp hj
  obtain ⟨-, -, -, rfl⟩ := (getFrom_eq_ok hf).mp hg
  exact hj

/-- What a scan yields is in the file, and the cursor has gone on. -/
def Yields (sc t : RecordScan I cap) (pages : Nat → Option PageData) (k : Nat) (record : Record) :
    Prop :=
  recordIn sc.file.header pages record.rid = some record ∧
    ∃ k', k < k' ∧ k' ≤ sc.file.header.total ∧ At t k'

theorem nextRecord_serving (h : Serving sc.file.pool sc.file.fileId hd pages)
    (hf : sc.file.header.Fits) (ha : At sc k) (hk : k ≤ sc.file.header.total) :
    wp nextRecord (fun r t => ReadOn sc.file t.file hd pages ∧ ∀ record ∈ r,
        Yields sc t pages k record)
      (fun e t => ReadOn sc.file t.file hd pages ∧ Reports e) sc := by
  refine wp_mono (nextRecord_reads (reads_serving hf sc.predicate) (.refl h) ha hk) ?_ fun _ _ => id
  rintro r t ⟨ht, -, hshows⟩
  refine ⟨ht, ?_⟩
  rintro record ⟨⟩
  obtain ⟨k', hk', hle, hat, -, hrest⟩ := hshows
  exact ⟨recordIn_of_showing hf (hrest ▸ List.mem_cons_self), k', hk', hle, hat⟩

theorem collect_serving {s : RecordFile I cap} (h : Serving s.pool s.fileId hd pages)
    (hf : s.header.Fits) (predicate : List UInt8 → Except RecordError Bool) :
    wp collect (fun l t => ReadOn s t.file hd pages ∧ ∀ r ∈ l,
        recordIn s.header pages r.rid = some r)
      (fun e t => ReadOn s t.file hd pages ∧ Reports e) (s.scanWith predicate) := by
  refine wp_mono (collect_reads (reads_serving hf predicate) (.refl h)) ?_ fun _ _ => id
  rintro _ t ⟨ht, -, rfl⟩
  exact ⟨ht, fun r hr => recordIn_of_showing hf hr⟩

end Scans

/-! ## Opening -/

section Open

variable {file : PageFile I}

theorem registerFile_serving (hs : Steady file) :
    wp (registerFile file) (fun i pool => Serving pool i file.header file.contents)
      (fun _ _ => True)
      (BufferPoolState.new (PageFile I) cap) := by
  refine wp_mono (registerFile_settled settled_new (backed_new fun _ => none) hs) ?_
    fun _ _ _ => trivial
  rintro i pool ⟨hi, hb, rfl, hfiles⟩
  refine ⟨hi, hb, ?_⟩
  rw [headers, hfiles, update_self]
  rfl

/-- What `open` has checked of the header page. -/
structure Checked (file : PageFile I) (h : RecordFileHeader) : Prop where
  valid : h.Valid
  numPages_lt : h.numPages + 1 ≤ file.header.numPages
  stored : ∃ bytes, file.contents headerPageId = some bytes ∧
    RecordFileHeader.read (bytes.read 0 recordFileHeaderSize) = h

/-- What `open` leaves: the header is that of page 0, and nothing else is cached. -/
structure OpenedOver (file : PageFile I) (pool : BufferPoolState (PageFile I) cap) (fileId : Nat)
    (h : RecordFileHeader) : Prop where
  serving : Serving pool fileId file.header file.contents
  checked : Checked file h
  uncached : ∀ p, p ≠ headerPageId → pool.pageTable ⟨fileId, p⟩ = none
  cap_pos : 0 < cap

theorem openPool_serving (hs : Steady file) :
    wp (openPool file) (fun r pool => OpenedOver file pool r.1 r.2) (fun _ _ => True)
      (BufferPoolState.new (PageFile I) cap) := by
  unfold openPool
  simp only [wp_bind, wp_mapError]
  refine wp_mono (wp_and (registerFile_serving hs) (registerFile_pageTable file _)) ?_
    fun _ _ _ => trivial
  rintro i pool ⟨hpool, htab⟩
  refine wp_mono (wp_and (hpool.getPage headerPageId) (getPage_caches hpool.inv i headerPageId)) ?_
    fun _ _ _ => trivial
  rintro g t ⟨⟨hdata, ht⟩, hc⟩
  simp only [wp_get, wp_modify]
  cases hdec : RecordFileHeader.decode ((t.frames g.frameId).data.read 0 recordFileHeaderSize) with
  | error e => trivial
  | ok h =>
      obtain ⟨-, hread, hv⟩ := RecordFileHeader.decode_eq_ok_iff.mp hdec
      simp only [Except.mapError, wp_lift_ok]
      cases hcount : checked 32 (h.numPages + 1) with
      | none => trivial
      | some expectedTotalPages =>
          obtain rfl := checked_eq_some hcount
          simp only [wp_ite, wp_bind, wp_throw, wp_pure]
          split
          next => trivial
          next hle =>
            refine ⟨ht, ⟨hv, Nat.not_lt.mp hle, _, hdata, hread⟩, fun p hp => ?_, g.frameId.pos⟩
            refine hc.unpin g.frameId _ (by simpa using hp) ?_
            rw [htab]
            rfl

theorem open_serving (hs : Steady file) {s : RecordFile I cap}
    (ho : RecordFile.open file cap = .ok s) :
    OpenedOver file s.pool s.fileId s.header ∧ s.headerDirty = false := by
  unfold RecordFile.open at ho
  split at ho
  next => cases ho
  next =>
    cases hp : openPool file (BufferPoolState.new (PageFile I) cap) with
    | error e pool =>
        rw [hp] at ho
        cases ho
    | ok r pool =>
        rw [hp] at ho
        cases ho
        have hopened : OpenedOver file pool r.1 r.2 := (wp_ok hp (openPool_serving hs) :)
        exact ⟨hopened, rfl⟩

end Open

/-! ## Any bytes -/

section Bytes

variable {c : List UInt8} {file : PageFile I}

theorem contents_of_opened (ho : Page.Opened c file) : file.contents = pageIn c := by
  funext p
  have himage : file.image p = pageAt c p := by
    rw [PageFile.image, if_neg (by simp [ho.loadedPageId]), ho.content]
  have huse : file.InUse p ↔ p < (FileHeader.read (headerAt c)).numPages ∧
      (pageAt c p).nextFree = pageUsed := by
    rw [PageFile.InUse, himage, ho.header]
  simp only [PageFile.contents, pageIn, huse, himage]

end Bytes

end Redbase.Record
