import Redbase.Page.Lemmas.Simulation
import Redbase.Record.Further
import Redbase.Record.Lemmas.Serving

/-!
# Inserting into a file with further pages

As long as the page file hands out the page after the last declared one, the declared pages stay
data pages in one chain.
-/

namespace Redbase.Record

open Prog Bytes Page Buffer BufferPoolState Function RecordFile RecordScan

variable {I : Type} [ReliableIo I] {cap p : Nat} {s t : RecordFile I cap} {hd : FileHeader}
  {contents : Nat → Option PageData} {pages : Nat → PageData} {chain : List Nat}
  {h : RecordFileHeader} {rid : Rid} {data : List UInt8}

/-! ## The declared pages -/

namespace DataPages

theorem page (hp : DataPages h contents pages chain) (hin : h.HasPage p) : Readable h (pages p) :=
  ⟨hp.wf.page p hin, hp.readable p hin⟩

/-- One page has new bytes, and is declared from now on if it was not. -/
theorem set {h' : RecordFileHeader} {chain' : List Nat} {bytes : PageData}
    (hp : DataPages h contents pages chain) (hw : WellFormed h' (update pages p bytes) chain')
    (hr : Readable h' bytes) (hin : ∀ q, h'.HasPage q → q ≠ p → h.HasPage q) :
    DataPages h' (update contents p (some bytes)) (update pages p bytes) chain' where
  wf := hw
  readable q hq := by
    rcases eq_or_ne q p with rfl | hne
    · rw [update_self]
      exact hr.next_ge
    · rw [update_of_ne hne]
      exact hp.readable q (hin q hq hne)
  shown q hq := by
    rcases eq_or_ne q p with rfl | hne
    · rw [update_self, update_self]
    · rw [update_of_ne hne, update_of_ne hne]
      exact hp.shown q (hin q hq hne)

theorem recordIn_of_lookup (hp : DataPages h contents pages chain)
    (hl : lookup h pages rid = some data) :
    recordIn h contents rid = some ⟨rid, data⟩ := by
  obtain ⟨hin, hslot⟩ := hasPage_of_lookup hl
  rw [lookup_of_hasPage hin hslot] at hl
  rw [recordIn_of_page hin (hp.shown _ hin), (hp.page hin).getFrom hp.wf.fits hslot]
  cases hfree : freeAt h (pages rid.pageId) rid.slotId with
  | true =>
      rw [hfree] at hl
      cases hl
  | false =>
      rw [hfree] at hl
      cases hl
      rfl

end DataPages

theorem Serving.file {pool : BufferPoolState (PageFile I) cap} {fileId : Nat}
    (h : Serving pool fileId hd contents) :
    ∃ file, pool.files fileId = some file ∧ file.header = hd ∧ Steady file := by
  obtain ⟨file, hfile, hhd⟩ := Option.map_eq_some_iff.mp h.header
  refine ⟨file, hfile, hhd, ?_⟩
  have hi := h.inv
  let store := steadyStore I
  exact hi.table.valid _ _ hfile

/-! ## The opened file -/

/-- The pool serves the declared pages, and has cached no page after them. -/
structure Stocked (s : RecordFile I cap) (hd : FileHeader) (contents : Nat → Option PageData)
    (pages : Nat → PageData) (chain : List Nat) : Prop where
  serving : Serving s.pool s.fileId hd contents
  data : DataPages s.header contents pages chain
  count : s.header.numPages + 1 ≤ hd.numPages
  uncached : ∀ p, s.header.numPages < p → s.pool.pageTable ⟨s.fileId, p⟩ = none

namespace Stocked

theorem count_lt (h : Stocked s hd contents pages chain) : s.header.numPages + 1 < 2 ^ 32 := by
  obtain ⟨file, -, rfl, hsteady⟩ := h.serving.file
  exact Nat.lt_of_le_of_lt h.count hsteady.coherent.count

theorem get_finds (h : Stocked s hd contents pages chain) (hc : 0 < cap)
    (hl : lookup s.header pages rid = some data) :
    ∃ t, RecordFile.get rid s = .ok ⟨rid, data⟩ t := by
  have hin := h.data.recordIn_of_lookup hl
  have hw := get_serving h.serving h.data.wf.fits rid
  cases hg : RecordFile.get rid s with
  | error e t =>
      obtain ⟨-, -, hnone⟩ := wp_error hg hw
      rw [hnone hc] at hin
      cases hin
  | ok r t =>
      obtain ⟨-, hr⟩ := wp_ok hg hw
      rw [hin, Option.some.injEq] at hr
      exact ⟨t, by rw [hr]⟩

/-- A scan reads every declared page. -/
theorem reads (h : Stocked s hd contents pages chain) (hc : 0 < cap) :
    Reads alwaysMatch s.header (fun t : RecordFile I cap => ReadOn s t hd contents)
      (fun _ _ => False)
      (fun k => recordIn s.header contents (ridAt s.header k)) (fun _ => true) (fun _ => True) where
  fits := h.data.wf.fits
  header _ ht := ht.header
  read t k ht hk := by
    have hf := h.data.wf.fits
    have hin := ridAt_hasPage hf hk
    have hread := readRecordIfUsed_serving ht.serving (ht.header.symm ▸ hf) (ridAt s.header k)
    rw [ht.header] at hread
    refine wp_mono hread ?_ ?_
    · rintro r u ⟨hu, rfl⟩
      exact ⟨ht.trans hu, rfl, trivial⟩
    · rintro e u ⟨-, -, hfail⟩
      obtain ⟨e', he'⟩ := hfail hc hin _ (h.data.shown _ hin)
      rw [(h.data.page hin).readIfUsed hf (ridAt_slot_lt hf k)] at he'
      cases he'
  accepts _ _ _ _ _ := rfl

theorem scan_finds (h : Stocked s hd contents pages chain) (hc : 0 < cap)
    (hl : lookup s.header pages rid = some data) :
    ∃ l t, collect s.scan = .ok l t ∧ (⟨rid, data⟩ : Record) ∈ l := by
  have hw := collect_reads (s := s) (h.reads hc) (.refl h.serving)
  obtain ⟨hin, hslot⟩ := hasPage_of_lookup hl
  obtain ⟨k, hk, rfl⟩ := exists_ridAt hin hslot
  obtain ⟨l, t, hrun, -, -, rfl⟩ := exists_ok_of_wp hw
  refine ⟨_, t, hrun, ?_⟩
  simp only [showing, List.mem_filter, List.mem_filterMap, List.mem_range'_1, and_true]
  exact ⟨k, by omega, h.data.recordIn_of_lookup hl⟩

end Stocked

/-! ## Inserting -/

/-- `t` is `s` with the same records, over the same pages or one page more. -/
structure Restocked (s t : RecordFile I cap) (pages pages' : Nat → PageData) (chain' : List Nat) :
    Prop where
  stocked : ∃ hd' contents', Stocked t hd' contents' pages' chain'
  layout : SameLayout s.header t.header
  fileId : t.fileId = s.fileId
  lookup : lookup t.header pages' = lookup s.header pages

theorem Stocked.restocked (h : Stocked s hd contents pages chain) :
    Restocked s s pages pages chain :=
  ⟨⟨hd, contents, h⟩, .refl _, rfl, rfl⟩

/-- A call that only cached pages. -/
theorem Stocked.readOn (h : Stocked s hd contents pages chain)
    {pool : BufferPoolState (PageFile I) cap} {keys : List BufferKey}
    (hs : Serving pool s.fileId hd contents) (hc : CachesOnly s.pool pool keys)
    (hk : ∀ p, s.header.numPages < p → ⟨s.fileId, p⟩ ∉ keys) :
    Restocked s { s with pool } pages pages chain :=
  ⟨⟨hd, contents, hs, h.data, h.count, fun p hp => hc _ (hk p hp) (h.uncached p hp)⟩,
    .refl _, rfl, rfl⟩

theorem allocateDataPage_stocked (h : Stocked s hd contents pages [])
    (hnext : ∀ file, s.pool.files s.fileId = some file → nextPageId file = s.header.numPages + 1) :
    wp allocateDataPage (fun _ t => ∃ pages', Restocked s t pages pages' [s.header.numPages + 1])
      (fun _ t => Restocked s t pages pages []) s := by
  obtain ⟨file, hfile, hhd, -⟩ := h.serving.file
  have hid := hnext file hfile
  have hun := h.uncached _ (Nat.lt_succ_self _)
  unfold allocateDataPage
  simp only [wp_bind, wp_get]
  refine newPage_serving h.serving hfile (hid ▸ hun) (fun pool hs hc e => ?_) ?_
  · exact h.readOn hs hc fun _ _ => List.not_mem_nil
  rw [hid]
  refine wp_mono (allocateIn_spec h.data.wf.fits h.count_lt _) ?_ fun _ _ => False.elim
  rintro _ t ha pool ⟨⟨hd', hs, hlt, hle⟩, hc⟩
  have hadd := ha.added h.data.wf
  refine ⟨_, ⟨hd', _, hs, h.data.set hadd.wf hadd.readable ?_, ?_, ?_⟩, hadd.layout,
    rfl, hadd.lookup⟩
  · exact fun q hq hne => ((hasPage_succ hadd.numPages q).mp hq).resolve_left hne
  · show t.header.numPages + 1 ≤ _
    rw [hadd.numPages]
    exact hlt
  · intro q hq
    have hq : s.header.numPages + 1 < q := hadd.numPages ▸ hq
    refine hc _ ?_ (h.uncached q (by omega))
    simp only [List.mem_singleton, BufferKey.mk.injEq, true_and]
    omega

theorem insertHead_stocked {rest : List Nat} (h : Stocked s hd contents pages (p :: rest))
    (hd' : data.length = s.header.recordSize) :
    wp (withPageMut (getPageMut s.fileId p) fun _ => insertInto p data)
      (fun rid t => ∃ pages' chain', (∃ hd' contents', Stocked t hd' contents' pages' chain') ∧
        Stepped s t pages pages' rid (some data) ∧ lookup s.header pages rid = none)
      (fun _ t => Restocked s t pages pages (p :: rest)) s := by
  obtain ⟨hp, hpos⟩ := (h.data.wf.mem_iff p).mp List.mem_cons_self
  have hkeys : ∀ q, s.header.numPages < q → (⟨s.fileId, q⟩ : BufferKey) ∉ [⟨s.fileId, p⟩] :=
    fun q hq => by
    have hle := hp.2
    simp only [List.mem_singleton, BufferKey.mk.injEq, true_and]
    omega
  refine withPageMut_serving h.serving p _ (fun pool hs hc _ _ _ => h.readOn hs hc hkeys) ?_
  intro bytes hb
  rw [h.data.shown p hp, Option.some.injEq] at hb
  subst hb
  have hr := h.data.page hp
  refine wp_mono (insertInto_spec h.data.wf.fits hr hpos hd' p) ?_ fun _ _ => False.elim
  rintro _ t ⟨slot, rfl, hi⟩ pool hs hc
  obtain ⟨chain', hf⟩ := hi.filled h.data.wf hr
  refine ⟨_, chain', ⟨hd, _, hs, h.data.set hf.wf hf.readable ?_, ?_, ?_⟩,
    ⟨hf.layout, rfl, hf.lookup⟩, lookup_of_free hi.was_free⟩
  · exact fun q hq _ => ⟨hq.1, hf.numPages ▸ hq.2⟩
  · show t.header.numPages + 1 ≤ _
    rw [hf.numPages]
    exact h.count
  · intro q hq
    have hq : s.header.numPages < q := hf.numPages ▸ hq
    exact hc _ (hkeys q hq) (h.uncached q hq)

/-- One insert: the new record has an id of its own, and the other records are what they were. -/
theorem insert_stocked (h : Stocked s hd contents pages chain) (hnext : TakesNext s data) :
    wp (RecordFile.insert data)
      (fun rid t => ∃ pages' chain', (∃ hd' contents', Stocked t hd' contents' pages' chain') ∧
        lookup t.header pages' = update (lookup s.header pages) rid (some data) ∧
          lookup s.header pages rid = none)
      (fun _ t => ∃ pages' chain', Restocked s t pages pages' chain') s := by
  unfold RecordFile.insert
  simp only [wp_bind, wp_get, ensureRecordLength_eq]
  by_cases hlen : data.length = s.header.recordSize
  · simp only [if_pos hlen, wp_check_ok, wp_bind, wp_get, wp_ite]
    rcases h.data.wf.first_cases h.count_lt with ⟨he, rfl⟩ | ⟨p, rest, rfl, -, hne, hp⟩
    · rw [if_pos he]
      refine wp_mono (allocateDataPage_stocked h (hnext hlen he)) ?_ fun _ t ht => ⟨_, _, ht⟩
      rintro _ t ⟨pages', ⟨hd', contents', ht⟩, hl, hf, hlook⟩
      rcases ht.data.wf.first_cases ht.count_lt with ⟨-, hnil⟩ | ⟨p, rest, hc, -, -, hp⟩
      · cases hnil
      · cases hc
        rw [hp]
        refine wp_mono (insertHead_stocked ht (hlen.trans hl.size.symm)) ?_ ?_
        · rintro rid u ⟨pages'', chain', hu, hst, hnone⟩
          exact ⟨pages'', chain', hu, hlook ▸ hst.lookup, hlook ▸ hnone⟩
        · rintro _ u ⟨hu, hl', hf', hlook'⟩
          exact ⟨_, _, hu, ⟨hl'.size.trans hl.size, hl'.slots.trans hl.slots⟩, hf'.trans hf,
            hlook'.trans hlook⟩
    · rw [if_neg hne, hp]
      refine wp_mono (insertHead_stocked h hlen) ?_ fun _ t ht => ⟨_, _, ht⟩
      rintro rid t ⟨pages', chain', ht, hst, hnone⟩
      exact ⟨pages', chain', ht, hst.lookup, hnone⟩
  · rw [if_neg hlen, wp_check_error]
    exact ⟨_, _, h.restocked⟩

/-! ## Runs -/

theorem stocked_of_open {file : PageFile I} (hs : Steady file)
    (ho : RecordFile.open file cap = .ok s) (hp : DataPages s.header file.contents pages chain) :
    Stocked s file.header file.contents pages chain := by
  obtain ⟨hopened, -⟩ := open_serving hs ho
  exact ⟨hopened.serving, hp, hopened.checked.numPages_lt,
    fun p hp => hopened.uncached p (Nat.ne_of_gt (Nat.zero_lt_of_lt hp))⟩

/-- The file serves the records `l`. -/
def Serves (s : RecordFile I cap) (l : List Record) : Prop :=
  ∃ hd contents pages chain, Stocked s hd contents pages chain ∧
    ∀ r ∈ l, lookup s.header pages r.rid = some r.data

theorem Serves.finds {l : List Record} (h : Serves s l) (hc : 0 < cap) {r : Record} (hr : r ∈ l) :
    Finds s r := by
  obtain ⟨hd, contents, pages, chain, hs, hl⟩ := h
  exact ⟨hs.get_finds hc (hl r hr), hs.scan_finds hc (hl r hr)⟩

theorem Inserts.serves {l : List Record} (hr : Inserts TakesNext s l t) (hs : Serves s []) :
    Serves t l := by
  induction hr with
  | start => exact hs
  | @inserted l t u rid data _ hok hi ih =>
      obtain ⟨hd, contents, pages, chain, ht, hl⟩ := ih
      obtain ⟨pages', chain', ⟨hd', contents', hu⟩, hlook, hnone⟩ :=
        wp_ok hi (insert_stocked ht hok)
      refine ⟨hd', contents', pages', chain', hu, fun r hr => ?_⟩
      rw [hlook]
      rcases List.mem_cons.mp hr with rfl | hr
      · exact update_self ..
      · have hne : r.rid ≠ rid := by
          intro he
          have := hl r hr
          rw [he, hnone] at this
          cases this
        rw [update_of_ne hne]
        exact hl r hr
  | @refused l t u e data _ hok hi ih =>
      obtain ⟨hd, contents, pages, chain, ht, hl⟩ := ih
      obtain ⟨pages', chain', ⟨hd', contents', hu⟩, -, -, hlook⟩ :=
        wp_error hi (insert_stocked ht hok)
      exact ⟨hd', contents', pages', chain', hu, fun r hr => hlook ▸ hl r hr⟩

/-! ## Page files with further pages -/

/-- A page file with the pages `f` up to `n`. -/
theorem exists_pages (f : Nat → PageData) {n : Nat} (hn : n < 2 ^ 31) :
    ∃ file : PageFile DiskPageIo, Reachable file ∧ Plain file (n + 1) f := by
  have hstore : ∃ (file : PageFile DiskPageIo) (st : Store), Reachable file ∧ Represents file st ∧
      st.free = [] ∧ st.numPages = n + 1 ∧ ∀ p ≤ n, st.data p = f p := by
    induction n with
    | zero =>
        obtain ⟨file, hfile, hr⟩ := Page.create_spec (DiskPageIo.mk [])
        refine ⟨_, _, (Reachable.create hfile).step (.allocate fun _ => f 0),
          (step_represents hr _ (Nat.zero_le _)).1, rfl, rfl, fun p hp => ?_⟩
        obtain rfl := Nat.le_zero.mp hp
        simp [Store.step, Store.nextId, Store.empty]
    | succ n ih =>
        obtain ⟨file, st, hfile, hr, hfree, hnum, hdata⟩ := ih (Nat.lt_of_succ_lt hn)
        have hid : st.nextId = n + 1 := by rw [Store.nextId, hfree, hnum]; rfl
        refine ⟨_, _, hfile.step (.allocate fun _ => f (n + 1)),
          (step_represents hr _ (by omega)).1, ?_, ?_, fun p hp => ?_⟩
        · simp [Store.step, Store.write, hfree]
        · simp [Store.step, Store.write, hfree, hnum]
        · simp only [Store.step, Store.write_data, Store.allocate_data, hid]
          rcases eq_or_ne p (n + 1) with rfl | hne
          · rw [update_self]
          · rw [update_of_ne hne, update_of_ne hne]
            exact hdata p (by omega)
  obtain ⟨file, st, hfile, hr, hfree, hnum, hdata⟩ := hstore
  have hp := hnum ▸ Represents.plain_of_free hr hfree
  refine ⟨file, hfile, hp.valid, hp.header, fun p => ?_⟩
  rw [hp.contents]
  split
  next hlt => rw [hdata p (by omega)]
  next => rfl

/-- A page file with `n` pages after page 0, which holds `first`. -/
theorem exists_pageFile (first : PageData) {n : Nat} (hn : n < 2 ^ 31) :
    ∃ file : PageFile DiskPageIo, Reachable file ∧ ∃ pages, Plain file (n + 1) pages ∧
      pages 0 = first := by
  obtain ⟨file, hfile, hp⟩ := exists_pages (fun _ => first) hn
  exact ⟨file, hfile, _, hp, rfl⟩

/-- A file for records of four bytes that declares no data page, with `n` pages after the header
page. -/
theorem exists_opened {n : Nat} (hn : n < 2 ^ 31) :
    ∃ (file : PageFile DiskPageIo) (s : RecordFile DiskPageIo 1) (pages : Nat → PageData),
      Reachable file ∧
      RecordFile.open file 1 = .ok s ∧ s.header = ⟨4, 989, -1, 0⟩ ∧
        Quiet s.pool s.fileId (n + 1) pages ∧
      DataPages s.header file.contents pages [] := by
  have hnew : RecordFileHeader.new 4 = .ok ⟨4, 989, -1, 0⟩ := by decide
  obtain ⟨hfits, -, hfirst, hnum⟩ := RecordFileHeader.new_eq_ok hnew
  obtain ⟨file, hfile, pages, hp, hzero⟩ :=
    exists_pageFile ((Block.zero pageDataSize).write 0 (RecordFileHeader.encode ⟨4, 989, -1, 0⟩)) hn
  have hwf : WellFormed ⟨4, 989, -1, 0⟩ pages [] := wellFormed_empty hfits hfirst hnum
  have hstored : RecordFileHeader.read ((pages 0).read 0 recordFileHeaderSize) =
      ⟨4, 989, -1, 0⟩ := by
    rw [hzero]
    exact hfits.read_header recordPageListEnd_isI32 (by decide) _
  obtain ⟨s, ho, hhdr, hq⟩ := open_valid hp (Nat.le_add_left _ _) Nat.one_pos hstored
    (hwf.valid (by simp [Small]))
  refine ⟨file, s, pages, hfile, ho, hhdr, hq, ?_⟩
  rw [hhdr]
  exact ⟨hwf, fun p hin => absurd hin (not_hasPage_of_empty hnum p),
    fun p hin => absurd hin (not_hasPage_of_empty hnum p)⟩

/-- A record that needs a page goes to the one that the page file hands out. -/
theorem insert_goes_next {n : Nat} (hq : Quiet s.pool s.fileId n pages) (hf : s.header.Fits)
    (hfirst : s.header.firstFreePage = recordPageListEnd) (hcount : s.header.numPages + 1 < 2 ^ 32)
    (hn : n + 1 < 2 ^ 32) (hlen : data.length = s.header.recordSize) :
    wp (RecordFile.insert data)
      (fun rid t => rid.pageId = n ∧ t.header.numPages = s.header.numPages + 1) never s := by
  unfold RecordFile.insert allocateDataPage
  simp only [wp_bind, wp_get, ensureRecordLength_eq, if_pos hlen, wp_check_ok, wp_ite,
    if_pos hfirst]
  refine wp_newPage hq (fun hE => absurd hE (Nat.ne_of_lt hn)) ?_
  refine wp_mono (allocateIn_spec hf hcount _) ?_ fun _ _ => False.elim
  intro _ t ha pool hq'
  have hl : SameLayout s.header t.header := by
    rw [ha.header]
    exact ⟨rfl, rfl⟩
  have hid : asU32 t.header.firstFreePage = n := by
    rw [ha.header]
    exact asU32_asI32 (by omega)
  have hr : Readable t.header t.bytes := by
    refine ⟨hl.pageOk ha.ok, ?_⟩
    rw [ha.next]
    decide
  rw [hid]
  refine wp_changePage hq' (Nat.lt_succ_self n) ?_
  rw [update_self]
  refine wp_mono (insertInto_spec (hl.fits hf) hr (hl.freeCount_eq ▸ ha.free)
      (hlen.trans hl.size.symm) n) ?_
    fun _ _ => False.elim
  rintro _ u ⟨slot, rfl, hi⟩ pool' -
  refine ⟨rfl, ?_⟩
  have hn' : t.header.numPages = s.header.numPages + 1 := by rw [ha.header]
  rw [← hn']
  rcases Nat.eq_zero_or_pos (freeCount t.header u.bytes) with h0 | hmore
  · rw [(hi.full h0).1]
  · rw [(hi.more hmore).2.1]

omit [ReliableIo I] in
/-- A record on a page that is not declared is not found. -/
theorem not_finds_of_gt [PageIo I] {r : Record} (hgt : s.header.numPages < r.rid.pageId) :
    ¬ Finds s r := by
  rintro ⟨⟨t, hget⟩, -⟩
  have hv : ¬ (s.header.HasPage r.rid.pageId ∧ r.rid.slotId < s.header.slotsPerPage) := fun hv =>
    absurd hv.1.2 (Nat.not_le.mpr hgt)
  have hw : wp (RecordFile.get r.rid) (fun _ _ => False) (fun _ _ => True) s := by
    unfold RecordFile.get
    simp only [wp_bind, wp_get, validateRid_eq, if_neg hv, wp_check_error]
  exact wp_ok hget hw

end Redbase.Record
