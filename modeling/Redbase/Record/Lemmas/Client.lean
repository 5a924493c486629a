import Redbase.Record.File
import Redbase.Buffer.Lemmas.Memory

/-!
# The pool as the record file uses it

The record file is the only client of its pool and holds one guard at a time, so between two calls
nothing is pinned, and the pool is the array of the file's pages.
-/

namespace Redbase.Record

open Prog Bytes Page Buffer BufferPoolState Function RecordFile

variable {I : Type} [ReliableIo I] {cap n : Nat} {pool : BufferPoolState (PageFile I) cap}
  {fileId p : Nat} {pages : Nat → PageData} {α : Type}

/-- The first `n` pages of the one file. -/
def filePages (fileId n : Nat) (pages : Nat → PageData) (key : BufferKey) : Option PageData :=
  if key.fileId = fileId ∧ key.pageId < n then some (pages key.pageId) else none

/-- No guard is alive and the pool holds the file, with `n` pages that are all in use. -/
structure Quiet (pool : BufferPoolState (PageFile I) cap) (fileId n : Nat)
    (pages : Nat → PageData) :
    Prop where
  inv : Inv pool []
  backed : Backed pool (filePages fileId n pages)
  header : headers pool fileId = some ⟨freeListEnd, n⟩
  cap_pos : 0 < cap

theorem filePages_write (hp : p < n) (bytes : PageData) :
    update (filePages fileId n pages) ⟨fileId, p⟩ (some bytes) =
      filePages fileId n (update pages p bytes) := by
  funext key
  rcases eq_or_ne key ⟨fileId, p⟩ with rfl | hne
  · simp [filePages, hp]
  · rw [update_of_ne hne]
    unfold filePages
    by_cases hk : key.fileId = fileId
    · have hpage : key.pageId ≠ p := fun he => hne (by cases key; cases hk; cases he; rfl)
      rw [update_of_ne hpage]
    · rw [if_neg fun h => hk h.1, if_neg fun h => hk h.1]

theorem filePages_new (bytes bytes' : PageData) :
    update (update (filePages fileId n pages) ⟨fileId, n⟩ (some bytes)) ⟨fileId, n⟩ (some bytes') =
      filePages fileId (n + 1) (update pages n bytes') := by
  rw [update_idem]
  funext key
  rcases eq_or_ne key ⟨fileId, n⟩ with rfl | hne
  · simp [filePages]
  · rw [update_of_ne hne]
    unfold filePages
    by_cases hk : key.fileId = fileId
    · have hpage : key.pageId ≠ n := fun he => hne (by cases key; cases hk; cases he; rfl)
      rw [update_of_ne hpage]
      refine if_congr ?_ rfl rfl
      omega
    · rw [if_neg fun h => hk h.1, if_neg fun h => hk h.1]

namespace Quiet

theorem pinCount_eq (hq : Quiet pool fileId n pages) (f : Fin cap) : (pool.frames f).pinCount = 0 :=
  hq.inv.pinned.count f

/-- Some frame is unpinned. -/
theorem not_all_pinned (hq : Quiet pool fileId n pages) : ¬ ∀ f, (pool.frames f).pinCount ≠ 0 :=
  fun h =>
  h ⟨0, hq.cap_pos⟩ (hq.pinCount_eq _)

theorem file_known (hq : Quiet pool fileId n pages) : pool.files fileId ≠ none := by
  intro hf
  have hh := hq.header
  rw [headers, hf] at hh
  cases hh

theorem count_lt (hq : Quiet pool fileId n pages) : n < 2 ^ 32 := by
  have hh := hq.header
  unfold headers at hh
  obtain ⟨file, hfile, hhdr⟩ := Option.map_eq_some_iff.mp hh
  obtain ⟨st, hst⟩ := hq.inv.table.valid _ _ hfile
  have hlt := hst.coherent.count
  rwa [hhdr] at hlt

/-- A page of the file can always be had. -/
theorem not_getFails (hq : Quiet pool fileId n pages) (hp : p < n) (why : Stop BufferPoolError) :
    ¬ GetFails pool (filePages fileId n pages) ⟨fileId, p⟩ why := by
  rintro (⟨-, h⟩ | ⟨-, h⟩ | ⟨-, h⟩ | ⟨-, f, h⟩)
  · exact hq.not_all_pinned h
  · exact hq.file_known h
  · simp [filePages, hp] at h
  · rw [hq.pinCount_eq] at h
    simp at h

/-- The guard's bytes are those of its page. -/
theorem data_eq {g : Guard cap} {mem : BufferKey → Option PageData} (hi : Inv pool [g])
    (hb : Backed pool mem) {bytes : PageData} (hm : mem g.key = some bytes) :
    (pool.frames g.frameId).data = bytes := by
  have hd := hb.cached g.frameId g.key (hi.pinned.key g (by simp))
  rw [hm, Option.some.injEq] at hd
  exact hd.symm

omit [ReliableIo I] in
theorem headers_unpin (f : Fin cap) : headers (pool.unpinFrame f) = headers pool := by
  unfold unpinFrame
  split
  next => rfl
  next =>
    show headers (if _ then _ else _) = _
    split
    next => exact headers_touch
    next => rfl

/-- Dropping a read guard. -/
theorem release {g : Guard cap} (hi : Inv pool [g]) (hb : Backed pool (filePages fileId n pages))
    (hh : headers pool fileId = some ⟨freeListEnd, n⟩) (hc : 0 < cap) :
    Quiet (pool.unpinFrame g.frameId) fileId n pages := by
  have hu := unpinFrame_inv hi (g := g) (by simp)
  rw [List.erase_cons_head] at hu
  exact ⟨hu, hb.unpin, (congrFun (headers_unpin _) _).trans hh, hc⟩

end Quiet

/-- The write guard `g` is the only one, on page `p` with the bytes `bytes`; `pages` are the
others. -/
structure Writing (pool : BufferPoolState (PageFile I) cap) (g : Guard cap) (fileId n p : Nat)
    (pages : Nat → PageData) (bytes : PageData) : Prop where
  inv : Inv pool [g]
  dirty : (pool.frames g.frameId).dirty = true
  key : g.key = ⟨fileId, p⟩
  header : headers pool fileId = some ⟨freeListEnd, n⟩
  mem : ∃ mem, Backed pool mem ∧ mem g.key = some bytes ∧
    ∀ bytes', update mem g.key (some bytes') = filePages fileId n (update pages p bytes')

namespace Writing

variable {g : Guard cap} {bytes : PageData}

theorem data_eq (hw : Writing pool g fileId n p pages bytes) :
    (pool.frames g.frameId).data = bytes := by
  obtain ⟨mem, hb, hm, -⟩ := hw.mem
  exact Quiet.data_eq hw.inv hb hm

/-- The guard is dropped and its page has new bytes. -/
theorem close (hw : Writing pool g fileId n p pages bytes) (hc : 0 < cap) (bytes' : PageData) :
    Quiet ((pool.modifyFrame g.frameId fun frame =>
        { frame with data := bytes' }).unpinFrame g.frameId)
      fileId n (update pages p bytes') := by
  obtain ⟨mem, hb, -, hupd⟩ := hw.mem
  have hbw : Backed _ (update mem g.key (some bytes')) :=
    hb.write hw.inv.table (hw.inv.pinned.key g (by simp)) hw.dirty
  rw [hupd] at hbw
  exact Quiet.release hw.inv.setData hbw hw.header hc

/-- The guard is dropped and its page is as it was handed out. -/
theorem release (hw : Writing pool g fileId n p pages bytes) (hc : 0 < cap) :
    Quiet (pool.unpinFrame g.frameId) fileId n (update pages p bytes) := by
  obtain ⟨mem, hb, hm, hupd⟩ := hw.mem
  have he := hupd bytes
  rw [← hm, update_eq_self] at he
  exact Quiet.release hw.inv (he ▸ hb) hw.header hc

end Writing

namespace Quiet

theorem getPage (hq : Quiet pool fileId n pages) (hp : p < n) :
    wp (getPage fileId p)
      (fun g pool => (pool.frames g.frameId).data = pages p ∧
        Quiet (pool.unpinFrame g.frameId) fileId n pages)
      never pool := by
  refine wp_mono (getPage_backed hq.inv hq.backed fileId p) ?_ fun e _ he =>
    absurd he.2.2 (hq.not_getFails hp e)
  rintro g t ⟨hi, hb, hkey, hh⟩
  have hmem : filePages fileId n pages g.key = some (pages p) := by
    rw [hkey]
    simp [filePages, hp]
  exact ⟨data_eq hi hb hmem, release hi hb ((congrFun hh _).trans hq.header) hq.cap_pos⟩

theorem getPageMut (hq : Quiet pool fileId n pages) (hp : p < n) :
    wp (getPageMut fileId p) (fun g pool => Writing pool g fileId n p pages (pages p))
      never pool := by
  refine wp_mono (getPageMut_backed hq.inv hq.backed fileId p) ?_ fun e _ he =>
    absurd he.2.2 (hq.not_getFails hp e)
  rintro g t ⟨hi, hb, ⟨hkey, hd⟩, hh⟩
  refine ⟨hi, hd, hkey, (congrFun hh _).trans hq.header, _, hb, ?_, fun bytes' => ?_⟩
  · rw [hkey]
    simp [filePages, hp]
  · rw [hkey]
    exact filePages_write hp bytes'

/-- The page file refuses a page only when its count has reached its bound. -/
theorem allocatePage (hq : Quiet pool fileId n pages) :
    wp (allocatePage fileId) (fun g pool => Writing pool g fileId (n + 1) n pages (Block.zero _))
      (fun _ pool => n + 1 = 2 ^ 32 ∧ Quiet pool fileId n pages) pool := by
  refine wp_mono (allocatePage_backed hq.inv hq.backed fileId) ?_ ?_
  · rintro g t ⟨hi, hb, ⟨hfile, hd⟩, hhdr⟩
    obtain ⟨hpage, hh⟩ := hhdr n hq.header
    have hkey : g.key = ⟨fileId, n⟩ := by
      cases hx : g.key
      rw [hx] at hfile hpage
      cases hfile
      cases hpage
      rfl
    refine ⟨hi, hd, hkey, ?_, _, hb, update_self _ _ _, fun bytes' => ?_⟩
    · rw [hh, update_self]
    · rw [hkey]
      exact filePages_new _ bytes'
  · rintro e t ⟨hi, hb, ⟨-, hpin⟩ | ⟨-, hf⟩ | ⟨m, hm, hlim, hhdr⟩⟩
    · exact absurd hpin hq.not_all_pinned
    · exact absurd hf hq.file_known
    · rw [hq.header] at hm
      cases hm
      exact ⟨hlim, hi, hb, (congrFun hhdr _).trans hq.header, hq.cap_pos⟩

end Quiet

/-! ## Methods -/

section Methods

variable {s : RecordFile I cap} {Q : α → RecordFile I cap → Prop}
  {E : Stop RecordError → RecordFile I cap → Prop}

omit [ReliableIo I] in
@[simp] theorem wp_check_ok (a : α) : wp (check (.ok a)) Q E s ↔ Q a s := Iff.rfl

omit [ReliableIo I] in
@[simp] theorem wp_check_error (e : RecordError) : wp (check (.error e)) Q E s ↔ E (.error e) s :=
  Iff.rfl

theorem wp_withPage (hq : Quiet s.pool s.fileId n pages) (hp : p < n)
    {body : PageData → Except RecordError α}
    (hbody : ∀ pool, Quiet pool s.fileId n pages →
      wp (check (body (pages p))) Q E { s with pool }) :
    wp (withPage p body) Q E s := by
  have hget := hq.getPage hp
  unfold wp at hget ⊢
  unfold withPage
  cases hg : BufferPoolState.getPage s.fileId p s.pool with
  | error e pool => rw [hg] at hget; exact hget.elim
  | ok g pool =>
      rw [hg] at hget
      have hw := hbody _ hget.2
      simp only [hget.1]
      cases hx : body (pages p) with
      | ok a => rw [hx] at hw; exact hw
      | error e => rw [hx] at hw; exact hw

omit [ReliableIo I] in
theorem wp_withPageMut_iff [PageIo I] {acquire : PoolM (PageFile I) cap (Guard cap)}
    {body : Nat → PageM α} :
    wp (withPageMut acquire body) Q E s ↔
      wp acquire
        (fun g pool => wp (body g.key.pageId) (fun a t => Q a (s.close pool g.frameId t))
          (fun e t => E (.error e) (s.close pool g.frameId t))
          ⟨(pool.frames g.frameId).data, s.header, s.headerDirty⟩)
        (fun e pool => E (poolError e) { s with pool }) s.pool := by
  unfold wp withPageMut
  cases acquire s.pool with
  | error e pool => exact Iff.rfl
  | ok g pool =>
      dsimp only
      cases body g.key.pageId ⟨(pool.frames g.frameId).data, s.header, s.headerDirty⟩ <;>
        exact Iff.rfl

/-- What the body leaves of the page and of the fields is stored, whether it fails or not. -/
theorem wp_withPageMut {acquire : PoolM (PageFile I) cap (Guard cap)} {body : Nat → PageM α}
    {bytes : PageData} (hc : 0 < cap)
    (hacq : wp acquire (fun g pool => Writing pool g s.fileId n p pages bytes)
      (fun e pool => E (poolError e) { s with pool }) s.pool)
    (hbody : wp (body p)
      (fun a t => ∀ pool, Quiet pool s.fileId n (update pages p t.bytes) →
        Q a ⟨pool, s.fileId, t.header, t.headerDirty⟩)
      (fun e t => ∀ pool, Quiet pool s.fileId n (update pages p t.bytes) →
        E (.error e) ⟨pool, s.fileId, t.header, t.headerDirty⟩) ⟨bytes, s.header, s.headerDirty⟩) :
    wp (withPageMut acquire body) Q E s := by
  refine wp_withPageMut_iff.mpr (wp_mono hacq ?_ fun _ _ => id)
  intro g pool hw
  rw [hw.data_eq, hw.key]
  exact wp_mono hbody (fun a t ht => ht _ (hw.close hc t.bytes))
    fun e t ht => ht _ (hw.close hc t.bytes)

theorem wp_changePage (hq : Quiet s.pool s.fileId n pages) (hp : p < n) {body : Nat → PageM α}
    (hbody : wp (body p)
      (fun a t => ∀ pool, Quiet pool s.fileId n (update pages p t.bytes) →
        Q a ⟨pool, s.fileId, t.header, t.headerDirty⟩)
      (fun e t => ∀ pool, Quiet pool s.fileId n (update pages p t.bytes) →
        E (.error e) ⟨pool, s.fileId, t.header, t.headerDirty⟩) ⟨pages p, s.header,
          s.headerDirty⟩) :
    wp (withPageMut (getPageMut s.fileId p) body) Q E s :=
  wp_withPageMut hq.cap_pos
    (wp_mono (hq.getPageMut hp) (fun _ _ hw => hw) fun _ _ => False.elim) hbody

theorem wp_newPage (hq : Quiet s.pool s.fileId n pages)
    (hE : n + 1 = 2 ^ 32 → ∀ e pool, Quiet pool s.fileId n pages → E e { s with pool })
    {body : Nat → PageM α}
    (hbody : wp (body n)
      (fun a t => ∀ pool, Quiet pool s.fileId (n + 1) (update pages n t.bytes) →
        Q a ⟨pool, s.fileId, t.header, t.headerDirty⟩)
      (fun e t => ∀ pool, Quiet pool s.fileId (n + 1) (update pages n t.bytes) →
        E (.error e) ⟨pool, s.fileId, t.header, t.headerDirty⟩) ⟨Block.zero _, s.header,
          s.headerDirty⟩) :
    wp (withPageMut (allocatePage s.fileId) body) Q E s :=
  wp_withPageMut hq.cap_pos
    (wp_mono hq.allocatePage (fun _ _ hw => hw) fun _ _ hn => hE hn.1 _ _ hn.2) hbody

end Methods

end Redbase.Record
