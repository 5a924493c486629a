import Redbase.Page.Lemmas.Simulation
import Redbase.Page.Lemmas.Damage
import Redbase.Page.Lemmas.Threaded
import Redbase.Page.Lemmas.Links

/-!
# The page file is a store of pages

For every run on a `PageIo` that behaves as a byte array: what the operations answer, and how the
free list is threaded through the file.
-/

namespace Redbase.Page

open Prog Bytes PageFile

variable {I : Type} [ReliableIo I] {io : I} {s : PageFile I} {h : List (Op × Reply)}

/-! ## The answers -/

/-- After any run, every operation answers as its history says, and a flush or a reopening before it
changes no answer. -/
theorem run_answers (hr : Run io h s) (op : Op) :
    Answers h (step s op).2 op ∧
      (step (step s .flush).1 op).2 = (step s op).2 ∧
      (step (step s .reopen).1 op).2 = (step s op).2 := by
  obtain ⟨st, hs, hrec, hle⟩ := hr.exists_store
  have hop := (step_represents hs op hle).2
  have hafter : ∀ op' : Op, (st.step op').1 = st → (step (step s op').1 op).2 = (step s op).2 := by
    intro op' he
    have h₁ := (step_represents hs op' hle).1
    rw [he] at h₁
    rw [(step_represents h₁ op hle).2, hop]
  exact ⟨hop ▸ hrec.answers op, hafter .flush rfl, hafter .reopen rfl⟩

/-- A page is filled, disposed of and handed out again. -/
theorem run_answers_recycled :
    ∃ (h : List (Op × Reply)) (s : PageFile DiskPageIo), Run ⟨[]⟩ h s ∧ h.length = 3 ∧
      Answers h (step s (.read 0)).2 (.read 0) ∧ lastData h 0 = some (Block.zero _) := by
  obtain ⟨s, hs, hrep⟩ := create_spec (DiskPageIo.mk [])
  let fill : Op := .allocate fun d => d.write 0 [7]
  obtain ⟨h₁, r₁⟩ := step_represents hrep fill (by decide)
  have run₁ := (Run.create hs).step fill (by rw [h₁.numPages]; decide)
  obtain ⟨h₂, r₂⟩ := step_represents h₁ (.dispose 0) (by decide)
  have run₂ := run₁.step (.dispose 0) (by rw [h₂.numPages]; decide)
  obtain ⟨h₃, r₃⟩ := step_represents h₂ (.allocate id) (by decide)
  have run₃ := run₂.step (.allocate id) (by rw [h₃.numPages]; decide)
  refine ⟨_, _, run₃, rfl, (run_answers run₃ (.read 0)).1, ?_⟩
  rw [r₃]
  rfl

/-! ## The free list -/

/-- What the free list looks like in the file and what it makes of `allocate` and `dispose`. -/
structure FreeList {I : Type} [ByteIo I] (s : PageFile I) (l : List Nat) : Prop where
  chain : FreeChain s s.header.firstFreePage l
  nodup : l.Nodup
  mem_iff : ∀ p, p ∈ l ↔ p < s.header.numPages ∧ (s.image p).nextFree ≠ pageUsed

theorem Represents.freeList {st : Store} (h : Represents s st) : FreeList s st.free where
  chain := h.chain
  nodup := st.free_nodup
  mem_iff p := by
    constructor
    · intro hp
      have hlt := h.numPages ▸ st.free_lt p hp
      exact ⟨hlt, (h.free_iff hlt).mp hp⟩
    · rintro ⟨hlt, hne⟩
      exact (h.free_iff hlt).mpr hne

/-- After any run the free list holds the pages that are not in use, in the order of the stack
`disposed h`; `allocate` takes its head, and grows the file when there is none; `dispose` accepts
exactly the pages in use and otherwise changes no page. -/
theorem run_freeList (hr : Run io h s) :
    FreeList s (disposed h) ∧
      (∀ change, (step s (.allocate change)).2 =
          .allocated ((disposed h).headD s.header.numPages) (Block.zero _) ∧
        ¬ s.InUse ((disposed h).headD s.header.numPages) ∧
        (step s (.allocate change)).1.header.numPages =
          if disposed h = [] then s.header.numPages + 1 else s.header.numPages) ∧
      ∀ p, (s.InUse p → (step s (.dispose p)).2 = .done) ∧
        (¬ s.InUse p →
          (step s (.dispose p)).2 =
            .failed (if p < s.header.numPages then .pageAlreadyFree p else .invalidPageId p) ∧
          (step s (.dispose p)).1.header = s.header ∧
          ∀ q < s.header.numPages, (step s (.dispose p)).1.image q = s.image q) := by
  obtain ⟨st, hs, hrec, hle⟩ := hr.exists_store
  rw [hrec.free]
  refine ⟨hs.freeList, fun change => ?_, fun p => ?_⟩
  · obtain ⟨h', hreply⟩ := step_represents hs (.allocate change) hle
    rw [hs.inUse_iff, hreply, h'.numPages, hs.numPages]
    exact ⟨rfl, st.not_inUse_nextId, rfl⟩
  · have hreply := (step_represents hs (.dispose p) hle).2
    rw [hs.inUse_iff, hreply, hs.numPages]
    constructor
    · intro hu
      simp only [Store.step, dif_pos hu]
    · intro hu
      refine ⟨by simp only [Store.step, dif_neg hu], ?_⟩
      simp only [Store.step, dif_neg hu, step] at hreply ⊢
      cases hd : disposePage p s with
      | ok _ t => simp [hd, unitReply] at hreply
      | error e t =>
          have hsame := wp_error hd (disposePage_error hs.coherent)
          rw [hs.numPages] at hsame
          exact hsame

/-- Two pages are disposed of; the last one heads the list. -/
theorem run_freeList_two :
    ∃ (h : List (Op × Reply)) (s : PageFile DiskPageIo), Run ⟨[]⟩ h s ∧ disposed h = [0, 1] ∧
      FreeList s (disposed h) := by
  obtain ⟨s, hs, hrep⟩ := create_spec (DiskPageIo.mk [])
  obtain ⟨h₁, r₁⟩ := step_represents hrep (.allocate id) (by decide)
  have run₁ := (Run.create hs).step (.allocate id) (by rw [h₁.numPages]; decide)
  obtain ⟨h₂, r₂⟩ := step_represents h₁ (.allocate id) (by decide)
  have run₂ := run₁.step (.allocate id) (by rw [h₂.numPages]; decide)
  obtain ⟨h₃, r₃⟩ := step_represents h₂ (.dispose 1) (by decide)
  have run₃ := run₂.step (.dispose 1) (by rw [h₃.numPages]; decide)
  obtain ⟨h₄, r₄⟩ := step_represents h₃ (.dispose 0) (by decide)
  have run₄ := run₃.step (.dispose 0) (by rw [h₄.numPages]; decide)
  refine ⟨_, _, run₄, ?_, (run_freeList run₄).1⟩
  rw [r₁, r₂, r₃, r₄]
  rfl

/-! ## Failed calls -/

/-- After any sparing run a read that succeeds shows what was last written, no page in use is handed
out, and no step stores other bytes for a page in use. -/
theorem faultyRun_keeps {I : Type} [ByteIo I] {io : I} {s : PageFile I} {h : List (Op × Reply)}
    (hr : FaultyRun Sparing io h s) :
    (∀ p d g t, lastData h p = some d → readPage p s = .ok g t → g.data = d) ∧
      (∀ g t, allocatePage s = .ok g t → lastData h g.pageId = none) ∧
      ∀ op, (op = .reopen → ∃ t, flush s = .ok () t) → Sparing s op →
        Spares (lastData h) s (step s op).1 := by
  have hm := hr.remembers
  refine ⟨fun p d g t hp hg => ?_, fun g t hg => ?_, fun op hclose hok => ?_⟩
  · obtain ⟨-, hu, hd⟩ := wp_ok hg (readPage_faulty hm.sane)
    rw [hd, hm.image hp hu]
  · obtain ⟨b, -, -, -, hall, -⟩ := wp_ok hg (allocatePage_faulty hm.sane)
    exact hm.handedOut hall
  · exact (step_remembers hm op hclose hok).2

/-- Writes `b` over the first byte. -/
def setFirst (b : UInt8) (d : PageData) : PageData := d.write 0 [b]

/-- A page that had to be written back is in the buffer as it is stored when the read fails before
it has copied anything. -/
theorem Leaves.of_unread {R : PageBuf → PageBuf → Prop} {s : PageFile FaultyIo} {op : Op}
    (hs : Sane s) (hd : s.loadedPageDirty = true)
    (ho : (final (flushLoadedPage s)).io.outcomes = [some 0]) (hr : ∀ page, R page page) :
    Leaves R s op := by
  intro p _ u b r hf hl
  obtain ⟨offset, e, io, -, hread⟩ := hf.fails
  have hu := (wp_ok hf.wroteBack (flushLoadedPage_faulty hs)).loadedPage
  rw [hf.wroteBack] at ho
  have hb : b = u.loadedPage := by
    have he : FaultyIo.readExactAt offset (u.io, u.loadedPage) = .error e (io, b) := hread
    simp only [FaultyIo.readExactAt, show u.io.outcomes = [some 0] from ho] at he
    cases he
    ext1
    simp only [Block.bytes_write, slice, Nat.zero_min, List.take_zero, overwrite_nil]
  rw [PageFile.kept, if_pos ⟨hl, hd⟩, hb, hu]
  exact hr _

/-- Page 1 is disposed of and still resident when the read of page 0 fails; it is the next one that
is handed out. -/
theorem faultyRun_keeps_disposed :
    ∃ (io : FaultyIo) (h : List (Op × Reply)) (s : PageFile FaultyIo) (g g' : PageGuard)
      (t t' : PageFile FaultyIo), FaultyRun Sparing io h s ∧
      h.head?.map (·.2) = some (.failed (.io (.other 5))) ∧
      readPage 0 s = .ok g t ∧ lastData h 0 = some g.data ∧
      allocatePage s = .ok g' t' ∧ g'.pageId = 1 ∧ lastData h 1 = none := by
  let io : FaultyIo := ⟨⟨[]⟩, List.replicate 7 none ++ [some 0]⟩
  have run₀ : FaultyRun Sparing io [] (final (PageFile.create io)) := .create rfl
  have run₁ := run₀.step (.allocate (setFirst 7)) (fun h => by cases h)
    ⟨.of_loads (by rfl), trivial⟩
  have run₂ := run₁.step (.allocate (setFirst 9)) (fun h => by cases h)
    ⟨.of_loads (by rfl), trivial⟩
  have run₃ := run₂.step (.dispose 1) (fun h => by cases h) ⟨.of_resident (by decide), by decide⟩
  have run₄ := run₃.step (.read 0) (fun h => by cases h)
    ⟨.of_unread run₃.remembers.sane (by decide) (by decide) fun _ =>
      ⟨fun _ _ => rfl, fun _ => rfl⟩, trivial⟩
  obtain ⟨h, s, run, hfail, hd, hg, hg', hp⟩ : ∃ h s, FaultyRun Sparing io h s ∧
      h.head?.map (·.2) = some (.failed (.io (.other 5))) ∧
      (lastData h 0).isSome ∧ (returned (readPage 0 s)).isSome ∧
      (returned (allocatePage s)).isSome ∧ (returned (allocatePage s)).map (·.pageId) = some 1 :=
    ⟨_, _, run₄, by decide, by decide, by decide +kernel, by decide, by decide⟩
  obtain ⟨d, hd⟩ := Option.isSome_iff_exists.mp hd
  obtain ⟨g, hg⟩ := Option.isSome_iff_exists.mp hg
  obtain ⟨t, hg⟩ := exists_ok_of_returned hg
  obtain ⟨g', hg'⟩ := Option.isSome_iff_exists.mp hg'
  obtain ⟨hread, hfresh, -⟩ := faultyRun_keeps run
  rw [hg', Option.map_some, Option.some.injEq] at hp
  obtain ⟨t', hg'⟩ := exists_ok_of_returned hg'
  refine ⟨io, h, s, g, g', t, t', run, hfail, hg, ?_, hg', hp, hp ▸ hfresh g' t' hg'⟩
  rw [hd, hread 0 d g t hd hg]

/-- A read that fails after it has copied the whole page leaves that page in the buffer. -/
theorem readPage_fails {s : PageFile FaultyIo} {p q : Nat} (hs : Sane s)
    (hp : p < s.header.numPages) (hw : s.Within p) (hl : s.loadedPageId = some q) (hq : q ≠ p)
    (hd : s.loadedPageDirty = false) (ho : s.io.outcomes = [some pageSize]) :
    readPage p s = .error (.io (.other 5))
      { s with io := ⟨s.io.disk, []⟩, loadedPage := pageAt (ByteIo.content s.io) p } := by
  have hread : PageIo.readExactAt (fileHeaderSize + p * pageSize) (s.io, s.loadedPage) =
      .error (.other 5) (⟨s.io.disk, []⟩, pageAt (ByteIo.content s.io) p) := by
    show FaultyIo.readExactAt _ _ = _
    simp only [FaultyIo.readExactAt, ho]
    congr 2
    ext1
    rw [pageAt_bytes hw]
    have hlen : (slice s.io.disk.file (fileHeaderSize + p * pageSize) pageSize).length = _ :=
      congrArg List.length (pageAt_bytes hw).symm
    exact overwrite_zero_full (by rw [Nat.min_self, hlen, Block.length_eq, Block.length_eq])
  have hfail : wp (readPage p) (fun _ _ => False) (fun e u => e = .io (.other 5) ∧
      u = { s with io := ⟨s.io.disk, []⟩, loadedPage := pageAt (ByteIo.content s.io) p }) s := by
    unfold readPage loadPage ensurePageIdInRange flushLoadedPage
    simp only [wp_bind, wp_get, wp_ite, wp_throw, wp_pure, hl, hd, if_neg (Nat.not_le.mpr hp),
      Option.some.injEq, if_neg hq, if_true, pageOffset_eq (hs.lt_pageId hp),
        readLoadedPage, wp_mapError,
      wp_zoom, wp_lift_ok]
    exact wp_of_error hread ⟨rfl, rfl⟩
  obtain ⟨e, u, he, rfl, rfl⟩ := exists_error_of_wp hfail
  exact he

/-- The resident page is read from the buffer. -/
theorem readPage_loaded {I : Type} [PageIo I] {s : PageFile I} {p : Nat}
    (hp : p < s.header.numPages) (hl : s.loadedPageId = some p)
    (hu : s.loadedPage.nextFree = pageUsed) :
    readPage p s = .ok ⟨p, s.loadedPage.data⟩ s := by
  have hread : wp (readPage p) (fun g t => g = ⟨p, s.loadedPage.data⟩ ∧ t = s) never s := by
    unfold readPage loadPage ensurePageIdInRange ensureCurrentPageIsUsed
    simp only [wp_bind, wp_get, wp_ite, wp_throw, wp_pure, if_neg (Nat.not_le.mpr hp), if_pos hl]
    rw [if_neg (not_not_intro (show s.currentPageHeader.nextFree = pageUsed from hu))]
    exact ⟨rfl, trivial⟩
  obtain ⟨g, t, he, rfl, rfl⟩ := exists_ok_of_wp hread
  exact he

/-- A failed read copies page 0 into the buffer of page 1. -/
theorem failed_read_shows_other_page :
    ∃ (io : FaultyIo) (h : List (Op × Reply)) (s : PageFile FaultyIo) (d : PageData) (g : PageGuard)
      (t : PageFile FaultyIo), FaultyRun (fun _ _ => True) io h s ∧
      lastData h 1 = some d ∧ readPage 1 s = .ok g t ∧ g.data ≠ d := by
  let io : FaultyIo := ⟨⟨[]⟩, List.replicate 9 none ++ [some pageSize]⟩
  have run₀ : FaultyRun Sparing io [] (final (PageFile.create io)) := .create rfl
  have run₁ := run₀.step (.allocate (setFirst 7)) (fun h => by cases h)
    ⟨.of_loads (by rfl), trivial⟩
  have run₂ := run₁.step (.allocate (setFirst 9)) (fun h => by cases h)
    ⟨.of_loads (by rfl), trivial⟩
  have run₃ := run₂.step .flush (fun h => by cases h) ⟨.of_loads rfl, trivial⟩
  obtain ⟨h, s, run, h₀, h₁, hn, hl, hd, ho⟩ : ∃ h s, FaultyRun Sparing io h s ∧
      (lastData h 0).map (·.read 0 1) = some [7] ∧ (lastData h 1).map (·.read 0 1) = some [9] ∧
      s.header.numPages = 2 ∧ s.loadedPageId = some 1 ∧ s.loadedPageDirty = false ∧
      s.io.outcomes = [some pageSize] :=
    ⟨_, _, run₃, by decide, by decide, by decide, by decide,
      by decide, by decide⟩
  obtain ⟨d₀, hd₀, h₇⟩ := Option.map_eq_some_iff.mp h₀
  obtain ⟨d, hd₁, h₉⟩ := Option.map_eq_some_iff.mp h₁
  obtain ⟨hlt, hw, hkept, hused⟩ := run.remembers.page 0 d₀ hd₀
  rw [PageFile.kept, if_neg (by simp [hl])] at hkept hused
  have hf := readPage_fails run.remembers.sane hlt hw hl (by decide) hd ho
  have run₄ := (run.mono fun _ _ _ => trivial).step (.read 0) (fun h => by cases h) trivial
  rw [step, hf] at run₄
  have hg := readPage_loaded
    (s := { s with io := FaultyIo.mk s.io.disk [], loadedPage := pageAt s.io.disk.file 0 }) (p := 1)
    (show 1 < s.header.numPages by rw [hn]; decide) hl hused
  refine ⟨io, _, _, d, _, _, run₄, hd₁, hg, ?_⟩
  rintro rfl
  rw [show PageBuf.data (pageAt s.io.disk.file 0) = d₀ from hkept, h₇] at h₉
  cases h₉

theorem Accounts.freeList {I : Type} [ByteIo I] {s : PageFile I} {h : List (Op × Reply)}
    (ha : Accounts s h) : FreeList s (disposed h) where
  chain := ha.threaded.chain.congr fun p _ => ha.threaded.image_link p
  nodup := ha.threaded.nodup
  mem_iff p := by
    rw [ha.threaded.image_link]
    constructor
    · intro hp
      have hlt := (ha.threaded.small p hp).1
      exact ⟨hlt, (ha.threaded.mem_iff hlt).mp hp⟩
    · rintro ⟨hlt, hne⟩
      exact (ha.threaded.mem_iff hlt).mpr hne

/-- After any orderly run a failed allocation leaves the page count, the free list and the pages in
use; whatever follows, a later allocation hands out the same page and a later flush can be
opened. -/
theorem faultyRun_failed_allocate {I : Type} [ByteIo I] {io : I} {s t : PageFile I}
    {h : List (Op × Reply)} {change : PageData → PageData} {e : IoError}
    (hr : FaultyRun Orderly io h s) (hok : Orderly s (.allocate change))
    (hf : allocatePage s = .error (.io e) t) :
    t.header = s.header ∧ FreeList s (disposed h) ∧ FreeList t (disposed h) ∧
      (∀ p, t.InUse p ↔ s.InUse p) ∧
      ∀ k u, FaultyRun Orderly io (k ++ (.allocate change, .failed (.io e)) :: h) u →
        ((∀ x ∈ k, Idle x) → ∀ g v, allocatePage u = .ok g v → g.pageId = nextPageId s) ∧
        ∀ v, flush u = .ok () v → ∀ io' : I, ByteIo.content io' = ByteIo.content v.io →
          wp PageFile.open (fun _ _ => True) (fun e _ => ∃ e', e = .io e') io' := by
  have ha := hr.accounts
  have hstep : step s (.allocate change) = (t, .failed (.io e)) := by rw [step, hf]; rfl
  have ht := step_accounts ha (.allocate change) (fun h => by cases h) hok
  rw [hstep] at ht
  obtain ⟨-, hh⟩ := (wp_error hf (allocatePage_faulty ha.threaded.sane)).threaded ha.threaded hok
  refine ⟨hh, ha.freeList, ht.freeList, fun p => ?_, fun k u hu =>
    ⟨fun hk g v hg => ?_, fun v hv io' hio => ?_⟩⟩
  · have h₁ := ha.freeList.mem_iff p
    have h₂ := ht.freeList.mem_iff p
    rw [hh] at h₂
    have hiff := h₂.symm.trans h₁
    simp only [PageFile.InUse, hh]
    constructor
    · rintro ⟨hlt, hu⟩
      exact ⟨hlt, by_contra fun hne => (hiff.mpr ⟨hlt, hne⟩).2 hu⟩
    · rintro ⟨hlt, hu⟩
      exact ⟨hlt, by_contra fun hne => (hiff.mp ⟨hlt, hne⟩).2 hu⟩
  · obtain ⟨b, -, -, -, hall, -⟩ := wp_ok hg (allocatePage_faulty hu.accounts.threaded.sane)
    obtain ⟨hd, hc⟩ := disposed_idle (h := (.allocate change, .failed (.io e)) :: h) hk
    rw [hall.eq_nextPageId, hu.accounts.nextPageId_eq, hd, hc, ha.nextPageId_eq]
    rfl
  · have hT := hu.accounts.threaded
    obtain ⟨hfl, -, hhead⟩ := wp_ok hv (flush_faulty hT.sane)
    have hopen := hT.openable hfl.length (hT.read_header hhead)
    refine wp_mono (open_faulty io') (fun _ _ _ => trivial) fun e _ he => ?_
    exact he.resolve_right fun hn => hn (hio ▸ hopen)

/-- The write-back of page 0 fails when page 1 is to be allocated; the next call allocates it. -/
theorem faultyRun_failed_allocate_retry :
    ∃ (io : FaultyIo) (h : List (Op × Reply)) (s t : PageFile FaultyIo) (g : PageGuard)
      (v : PageFile FaultyIo), FaultyRun Orderly io h s ∧
        allocatePage s = .error (.io (.other 5)) t ∧
      t.header = s.header ∧ allocatePage t = .ok g v ∧ g.pageId = nextPageId s ∧
        nextPageId s = 1 := by
  let io : FaultyIo := ⟨⟨[]⟩, List.replicate 4 none ++ [some 0]⟩
  have run₀ : FaultyRun Orderly io [] (final (PageFile.create io)) := .create rfl
  have run₁ := run₀.step (.allocate (setFirst 7)) (fun h => by cases h)
    ⟨.of_loads (by rfl), fun _ => not_growthFails (by rfl)⟩
  obtain ⟨h, s, run, hn, hw, he, hg⟩ : ∃ h s, FaultyRun Orderly io h s ∧ nextPageId s = 1 ∧
      returned (flushLoadedPage s) = none ∧ thrown (allocatePage s) = some (.io (.other 5)) ∧
      (returned (allocatePage (final (allocatePage s)))).isSome :=
    ⟨_, _, run₁, by rfl, by decide, by decide, by decide⟩
  have hok : Orderly s (.allocate id) := by
    refine ⟨.of_flush hw, fun _ => ?_⟩
    rintro ⟨u, _, _, _, hu, _⟩
    rw [hu] at hw
    cases hw
  have hf := eq_error_of_thrown he
  obtain ⟨g, hg⟩ := Option.isSome_iff_exists.mp hg
  obtain ⟨v, hg⟩ := exists_ok_of_returned hg
  obtain ⟨hh, -, -, -, hlater⟩ := faultyRun_failed_allocate run hok hf
  have run' := run.step (.allocate id) (fun h => by cases h) hok
  rw [show step s (.allocate id) =
      (final (allocatePage s), .failed (.io (.other 5))) by rw [step, hf]; rfl]
    at run'
  exact ⟨io, h, s, _, g, v, run, hf, hh, hg,
    (hlater [] _ run').1 (fun _ hx => by cases hx) g v hg, hn⟩

/-- Without further failures, `open` rejects a file that is shorter than its header says. -/
theorem open_short {disk : DiskPageIo} {header : FileHeader}
    (hh : FileHeader.read (headerAt disk.file) = header) (hv : header.Valid)
    (hle : fileHeaderSize ≤ disk.file.length)
    (hlt : disk.file.length < fileHeaderSize + header.numPages * pageSize) :
    thrown (PageFile.open (FaultyIo.mk disk [])) =
      some (.corrupted "file is shorter than the number of pages declared in the header") := by
  have hdisk : wp (DiskPageIo.readExactAt 0)
      (fun _ t => t.1 = disk ∧ t.2 = headerAt disk.file) never
      (disk, Block.zero pageSize) := by
    refine wp_mono (DiskPageIo.readExactAt_spec disk (Block.zero _) 0) ?_ ?_
    · rintro _ t ⟨hd, -, hb⟩
      refine ⟨hd, ?_⟩
      ext1
      rw [hb, headerAt_bytes hle]
    · rintro _ _ ⟨-, hlt⟩
      exact absurd hlt (Nat.not_lt.mpr hle)
  obtain ⟨_, t, hok, htd, htb⟩ := exists_ok_of_wp hdisk
  have hbuf : readHeaderBuf (FaultyIo.mk disk []) = .ok (headerAt disk.file) ⟨disk, []⟩ := by
    have hz : PageIo.readExactAt 0 (FaultyIo.mk disk [], Block.zero pageSize) =
        .ok () (⟨disk, []⟩, headerAt disk.file) := by
      show zoom (fun t : FaultyIo × PageBuf => (t.1.disk, t.2))
        (fun t u => ({ u.1 with disk := t.1 }, t.2))
        (DiskPageIo.readExactAt 0) (⟨disk, []⟩, Block.zero pageSize) = _
      simp only [zoom, hok, htd, htb]
    simp only [readHeaderBuf, hz]
  have hdec : FileHeader.decode (headerAt disk.file) = .ok header := by
    rcases FileHeader.decode_eq (headerAt disk.file) with ⟨hd, -⟩ | ⟨-, hn⟩
    · rw [hd, hh]
    · exact absurd (hh ▸ hv) hn
  have hw : wp PageFile.open (fun _ _ => False)
      (fun e _ => e = .corrupted "file is shorter than the number of pages declared in the header")
      (FaultyIo.mk disk []) := by
    unfold PageFile.open
    simp only [wp_bind, wp_mapError, wp_ite, wp_throw]
    refine wp_of_ok (rfl : PageIo.len (FaultyIo.mk disk []) = .ok disk.file.length ⟨disk, []⟩) ?_
    rw [if_neg (Nat.not_lt.mpr hle)]
    refine wp_of_ok hbuf ?_
    rw [hdec, wp_lift_ok, if_pos hlt]
    trivial
  obtain ⟨e, t, he, rfl⟩ := exists_error_of_wp hw
  rw [he]
  rfl

/-- The file does not grow to two pages, but the header says so: the flushed file cannot be
opened. -/
theorem failed_growth_raises_page_count :
    ∃ (io : FaultyIo) (h : List (Op × Reply)) (s t u : PageFile FaultyIo),
      FaultyRun (fun _ _ => True) io h s ∧ allocatePage s = .error (.io (.other 5)) t ∧
      s.header.numPages = 1 ∧ t.header.numPages = 2 ∧ flush t = .ok () u ∧
      thrown (PageFile.open u.io) =
        some (.corrupted "file is shorter than the number of pages declared in the header") := by
  let io : FaultyIo := ⟨⟨[]⟩, List.replicate 5 none ++ [some 0]⟩
  have run₀ : FaultyRun Sparing io [] (final (PageFile.create io)) := .create rfl
  have run₁ := run₀.step (.allocate (setFirst 7)) (fun h => by cases h)
    ⟨.of_loads (by rfl), trivial⟩
  obtain ⟨h, s, run, run', hok, he, hs, ht, hd, hu⟩ : ∃ h s, FaultyRun (fun _ _ => True) io h s ∧
      FaultyRun Sparing io h s ∧ Sparing s (.allocate id) ∧
      thrown (allocatePage s) = some (.io (.other 5)) ∧ s.header.numPages = 1 ∧
      (final (allocatePage s)).header = ⟨freeListEnd, 2⟩ ∧
        (final (allocatePage s)).headerDirty = true ∧
      (returned (flush (final (allocatePage s)))).isSome ∧
      (final (flush (final (allocatePage s)))).io.outcomes = [] :=
    ⟨_, _, (FaultyRun.create rfl).step (.allocate (setFirst 7)) (fun h => by cases h) trivial, run₁,
      ⟨.of_loads (by rfl), trivial⟩, by decide, by rfl, by decide,
      by decide, by decide⟩
  have run₂ := run'.step (.allocate id) (fun h => by cases h) hok
  have hf := eq_error_of_thrown he
  rw [show step s (.allocate id) =
      (final (allocatePage s), .failed (.io (.other 5))) by rw [step, hf]; rfl]
    at run₂
  generalize final (allocatePage s) = t at *
  obtain ⟨_, hu₁⟩ := Option.isSome_iff_exists.mp hu.1
  obtain ⟨u, hu₁⟩ := exists_ok_of_returned hu₁
  rw [hu₁] at hu
  refine ⟨io, h, s, t, u, run, hf, hs, by rw [ht], hu₁, ?_⟩
  obtain ⟨hw, -, hh⟩ := wp_ok hu₁ (flush_faulty run₂.remembers.sane)
  have hread : FileHeader.read (headerAt (ByteIo.content u.io)) = ⟨freeListEnd, 2⟩ :=
    ht ▸ hh.resolve_right fun hn => by simp [hd] at hn
  have hlen : u.io.disk.file.length ≤ fileHeaderSize + s.header.numPages * pageSize :=
    (hw.length.trans (wp_error hf (allocatePage_faulty run'.remembers.sane)).length).trans_le
      run'.remembers.extent
  have hle := run₂.remembers.sane.header
  rw [show u.io = ⟨u.io.disk, []⟩ from congrArg (FaultyIo.mk _) hu.2]
  refine open_short hread ⟨Int.le_refl _, fun hne => absurd rfl hne⟩ ?_ ?_
  · exact hw.length.symm ▸ hle
  · rw [hs] at hlen
    exact Nat.lt_of_le_of_lt hlen (by decide)

/-! ## Opening what was left -/

/-- Allocations on an opened file recycle no page in use exactly if its free list comes to no page
twice and to none that is marked as used. -/
theorem neverRecycles_iff {c : List UInt8} (hc : Openable c) : NeverRecycles c ↔ FreeListClear c :=
  ⟨fun h => h.freeListClear hc, FreeListClear.neverRecycles⟩

/-- A file that was closed with two pages on its free list. -/
theorem neverRecycles_closed :
    ∃ (h : List (Op × Reply)) (s t : PageFile DiskPageIo), Run ⟨[]⟩ h s ∧ disposed h = [0, 1] ∧
      flush s = .ok () t ∧ NeverRecycles t.io.file := by
  obtain ⟨s, hs, hrep⟩ := create_spec (DiskPageIo.mk [])
  obtain ⟨h₁, r₁⟩ := step_represents hrep (.allocate id) (by decide)
  have run₁ := (Run.create hs).step (.allocate id) (by rw [h₁.numPages]; decide)
  obtain ⟨h₂, r₂⟩ := step_represents h₁ (.allocate id) (by decide)
  have run₂ := run₁.step (.allocate id) (by rw [h₂.numPages]; decide)
  obtain ⟨h₃, r₃⟩ := step_represents h₂ (.dispose 1) (by decide)
  have run₃ := run₂.step (.dispose 1) (by rw [h₃.numPages]; decide)
  obtain ⟨h₄, r₄⟩ := step_represents h₃ (.dispose 0) (by decide)
  have run₄ := run₃.step (.dispose 0) (by rw [h₄.numPages]; decide)
  obtain ⟨_, t, hflush, -, hf⟩ := exists_ok_of_wp (flush_store_spec h₄)
  obtain ⟨hopen, hclear⟩ := hf.freeListClear h₄
  refine ⟨_, _, t, run₄, ?_, hflush, (neverRecycles_iff hopen).mpr hclear⟩
  rw [r₁, r₂, r₃, r₄]
  rfl

/-- Page 0 was disposed of, handed out again and written back; the process stops before the file
header is. The file can be opened, and its next allocation zeroes page 0. -/
theorem stopped_before_header_recycles :
    ∃ (h : List (Op × Reply)) (s : PageFile DiskPageIo) (d : PageData), Run ⟨[]⟩ h s ∧
      lastData h 0 = some d ∧ d.read 0 1 = [7] ∧ Openable s.io.file ∧
      (pageAt s.io.file 0).nextFree = pageUsed ∧ (pageAt s.io.file 0).data = d ∧
      ¬ NeverRecycles s.io.file := by
  obtain ⟨s, hs, hrep⟩ := create_spec (DiskPageIo.mk [])
  obtain ⟨h₁, r₁⟩ := step_represents hrep (.allocate id) (by decide)
  have run₁ := (Run.create hs).step (.allocate id) (by rw [h₁.numPages]; decide)
  obtain ⟨h₂, r₂⟩ := step_represents h₁ (.allocate id) (by decide)
  have run₂ := run₁.step (.allocate id) (by rw [h₂.numPages]; decide)
  obtain ⟨h₃, r₃⟩ := step_represents h₂ (.dispose 0) (by decide)
  have run₃ := run₂.step (.dispose 0) (by rw [h₃.numPages]; decide)
  obtain ⟨h₄, r₄⟩ := step_represents h₃ .flush (by decide)
  have run₄ := run₃.step .flush (by rw [h₄.numPages]; decide)
  obtain ⟨h₅, r₅⟩ := step_represents h₄ (.allocate (setFirst 7)) (by decide)
  have run₅ := run₄.step (.allocate (setFirst 7)) (by rw [h₅.numPages]; decide)
  obtain ⟨h₆, r₆⟩ := step_represents h₅ (.read 1) (by decide)
  have run₆ := run₅.step (.read 1) (by rw [h₆.numPages]; decide)
  obtain ⟨hread, hopen, hpage, hne, hid, hlt⟩ :=
    header_stale h₄ (step_flush_stored h₃) rfl (by decide : Store.InUse _ 1) (setFirst 7)
  have hused := h₅.used 0 (by decide)
  have hdata := h₅.data 0 (by decide)
  rw [← hpage] at hused hdata
  refine ⟨_, _, setFirst 7 (Block.zero _), run₆, ?_, by decide, hopen, hused, hdata, fun hn => ?_⟩
  · rw [r₁, r₂, r₃, r₄, r₅, r₆]
    rfl
  · exact not_freeListClear hread hne hid hlt hused (hn.freeListClear hopen)

/-! ## Page ids as links -/

/-- Pages disposed of on a file with an empty free list are reported as free and handed out again in
the opposite order, also after the file was closed and opened, exactly if the last id is below
`2^31` and none is `2^32 - 2`. -/
theorem survivesLinks_iff {ps : List Nat} (h : Coherent s)
    (he : s.header.firstFreePage = freeListEnd) (hu : ∀ p ∈ ps, s.InUse p) (hn : ps.Nodup) :
    SurvivesLinks s ps ↔ (∀ p ∈ ps.getLast?, p < 2 ^ 31) ∧ ∀ p ∈ ps, p ≠ 2 ^ 32 - 2 := by
  have hempty : FreeListed s [] := ⟨h, he ▸ .nil, List.nodup_nil, by simp⟩
  obtain ⟨hdone, hlisted, -⟩ := steps_dispose hempty hu (by simp) hn
  rw [List.append_nil] at hlisted
  rw [← hlisted.survives_iff]
  constructor
  · intro hs
    exact ⟨hs.reported, hs.handsOut, hs.reopened⟩
  · rintro ⟨hreported, hhands, hreopened⟩
    exact ⟨hdone, hreported, hhands, hreopened⟩

/-- Two of three pages are disposed of. -/
theorem survivesLinks_two :
    ∃ s : PageFile DiskPageIo, PageFile.create ⟨[]⟩ = .ok () s ∧
      SurvivesLinks (steps s (List.replicate 3 (.allocate id))).1 [2, 0] := by
  obtain ⟨s, hs, hc, hh, hu⟩ := exists_filled (n := 3) (by decide)
  have hused : ∀ p ∈ [2, 0], (steps s (List.replicate 3 (.allocate id))).1.InUse p := by
    intro p hp
    apply hu
    simp only [List.mem_cons, List.not_mem_nil, or_false] at hp
    omega
  exact ⟨s, hs, (survivesLinks_iff hc (congrArg (·.firstFreePage) hh) hused (by decide)).mpr
    (by decide)⟩

/-- In a file of `2^31 + 1` pages the last one is disposed of: the flushed file is not opened
again. -/
theorem large_id_not_reopened :
    ∃ s : PageFile DiskPageIo, PageFile.create ⟨[]⟩ = .ok () s ∧
      Coherent (steps s (List.replicate (2 ^ 31 + 1) (.allocate id))).1 ∧
      (steps s (List.replicate (2 ^ 31 + 1) (.allocate id))).1.header = ⟨freeListEnd, 2 ^ 31 + 1⟩ ∧
      (steps s (List.replicate (2 ^ 31 + 1) (.allocate id))).1.InUse (2 ^ 31) ∧
      ¬ SurvivesLinks (steps s (List.replicate (2 ^ 31 + 1) (.allocate id))).1 [2 ^ 31] := by
  have hsize : 2 ^ 31 + 1 < 2 ^ 32 := by decide
  obtain ⟨s, hs, hc, hh, hu⟩ := exists_filled hsize
  have hlast := hu (2 ^ 31) (Nat.lt_succ_self _)
  refine ⟨s, hs, hc, hh, hlast, fun hsurvives => ?_⟩
  generalize (steps s (List.replicate (2 ^ 31 + 1) (.allocate id))).1 = t at *
  have hempty : FreeListed t [] :=
    ⟨hc, (congrArg (·.firstFreePage) hh) ▸ .nil, List.nodup_nil, by simp⟩
  obtain ⟨-, hlisted, -⟩ := steps_dispose hempty (by simpa using hlast) (by simp)
    (List.nodup_singleton (2 ^ 31))
  rw [List.append_nil] at hlisted
  have hsmall :=
    (hlisted.survives_iff.mp ⟨hsurvives.reported, hsurvives.handsOut, hsurvives.reopened⟩).1
  exact absurd (hsmall (2 ^ 31) rfl) (Nat.lt_irrefl _)

end Redbase.Page
