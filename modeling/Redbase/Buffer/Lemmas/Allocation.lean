import Redbase.Buffer.Lemmas.Recency
import Redbase.Buffer.Lemmas.Steady

/-!
# Pages of a file that holds anything

Which pages become cached, and what `allocate_page` does when the free list of the file need not
make sense: the page it names may be in use.
-/

namespace Redbase.Page

open Function PageFile

variable {I : Type} [ReliableIo I] {s t : PageFile I} {p q : Nat}

omit [ReliableIo I] in
theorem nextPageId_congr (h : t.header = s.header) : nextPageId t = nextPageId s := by
  unfold nextPageId
  rw [h]

theorem HandedOut.inUse (h : HandedOut s p t) (hq : s.InUse q) : t.InUse q := by
  rcases eq_or_ne q p with rfl | hne
  · exact ⟨h.page_lt, h.page.1⟩
  · have hlt := Nat.lt_of_lt_of_le hq.1 h.numPages_le
    exact ⟨hlt, (h.others q hne hlt).2 ▸ hq.2⟩

end Redbase.Page

namespace Redbase.Buffer

open Prog Bytes Page Function BufferPoolState

/-! ## What becomes cached -/

section Caches

variable {F : Type} {cap : Nat} {s t u : BufferPoolState F cap} {guards : List (Guard cap)}

/-- No page became cached, other than `keys`. -/
def CachesOnly (s t : BufferPoolState F cap) (keys : List BufferKey) : Prop :=
  ∀ key, key ∉ keys → s.pageTable key = none → t.pageTable key = none

namespace CachesOnly

variable {keys : List BufferKey}

theorem of_pageTable (h : t.pageTable = s.pageTable) : CachesOnly s t keys :=
  fun key _ hk => by rw [h, hk]

theorem modifyFrame (h : CachesOnly s t keys) {f : Fin cap} {c : Frame cap → Frame cap} :
    CachesOnly s (t.modifyFrame f c) keys := h

theorem touch (h : CachesOnly s t keys) (f : Fin cap) : CachesOnly s (t.touch f) keys := by
  rw [touch_eq]
  exact h

theorem unpin (h : CachesOnly s t keys) (f : Fin cap) : CachesOnly s (t.unpinFrame f) keys := by
  unfold BufferPoolState.unpinFrame
  split
  · exact h
  · show CachesOnly s (if _ then _ else _) keys
    split
    · exact h.modifyFrame.touch f
    · exact h.modifyFrame

end CachesOnly

theorem acquireFrame_cachesOnly [LawfulPageStore F] (h : Inv s guards) (keys : List BufferKey) :
    wp acquireFrame (fun _ t => CachesOnly s t keys) (fun _ t => CachesOnly s t keys) s := by
  refine wp_mono (wp_and (acquireFrame_inv h) (acquireFrame_spares h)) ?_ ?_
  · exact fun _ t ht key _ hk => ht.1.2.2.2 key hk
  · exact fun _ t ht => .of_pageTable ht.2

theorem installFrame_cachesOnly [PageStore F] {keys : List BufferKey} (h : CachesOnly s t keys)
    (f : Fin cap) {key : BufferKey} (hk : key ∈ keys) (data : PageData) (dirty : Bool) :
    wp (installFrame f key data dirty) (fun _ u => CachesOnly s u keys)
      (fun _ u => CachesOnly s u keys) t := by
  refine wp_mono (installFrame_outcome f key data dirty t) ?_ ?_
  · rintro _ _ ⟨-, rfl⟩
    refine CachesOnly.touch (fun key' hkey' hk' => ?_) f
    have hne : key' ≠ key := fun he => hkey' (he ▸ hk)
    show update t.pageTable key (some f) key' = none
    rw [update_of_ne hne]
    exact h key' hkey' hk'
  · rintro _ _ ⟨-, rfl⟩
    exact h

theorem request_cachesOnly [LawfulPageStore F] (h : Inv s guards) {key : BufferKey}
    {m : PoolM F cap PageData} (hm : OnlyFiles m) (dirty : Bool) :
    wp (request (do let data ← m; return (key, data)) dirty) (fun _ t => CachesOnly s t [key])
      (fun _ t => CachesOnly s t [key]) s := by
  unfold request
  simp only [wp_bind, wp_pure]
  refine wp_mono (acquireFrame_cachesOnly h [key]) (fun f t ht => ?_) fun _ _ => id
  refine wp_mono (hm t) ?_ ?_
  · rintro data _ ⟨files, rfl⟩
    have ht' : CachesOnly s { t with files } [key] := ht
    exact installFrame_cachesOnly ht' f List.mem_cons_self data dirty
  · rintro _ _ ⟨-, files, rfl⟩
    exact ht

theorem pinFrame_cachesOnly (f : Fin cap) (keys : List BufferKey) :
    wp (pinFrame f) (fun _ t => CachesOnly s t keys) (fun _ t => CachesOnly s t keys) s := by
  unfold pinFrame
  simp only [wp_bind, wp_get]
  cases checked 32 ((s.frames f).pinCount + 1) with
  | none => exact .of_pageTable rfl
  | some pinCount =>
      simp only [wp_bind, wp_modify]
      have hs : CachesOnly s s keys := .of_pageTable rfl
      exact hs.modifyFrame.touch f

theorem registerFile_pageTable [PageStore F] (file : F) (s : BufferPoolState F cap) :
    wp (registerFile file) (fun _ t => t.pageTable = s.pageTable)
      (fun _ t => t.pageTable = s.pageTable) s := by
  unfold registerFile
  simp only [wp_bind, wp_get]
  cases checked 32 (s.nextFileId + 1) with
  | none => exact rfl
  | some nextFileId => exact rfl

theorem getPage_cachesOnly [LawfulPageStore F] (h : Inv s guards) (fileId pageId : Nat) :
    wp (getPage fileId pageId) (fun _ t => CachesOnly s t [⟨fileId, pageId⟩])
      (fun _ t => CachesOnly s t [⟨fileId, pageId⟩]) s := by
  cases hk : s.pageTable ⟨fileId, pageId⟩ with
  | none => exact wp_congr (getPage_miss hk) (request_cachesOnly h (withFile_onlyFiles _ _) false)
  | some f =>
      refine wp_congr (getPage_hit hk) ?_
      simp only [wp_bind, wp_pure]
      exact pinFrame_cachesOnly f _

theorem getPageMut_cachesOnly [LawfulPageStore F] (h : Inv s guards) (fileId pageId : Nat) :
    wp (getPageMut fileId pageId) (fun _ t => CachesOnly s t [⟨fileId, pageId⟩])
      (fun _ t => CachesOnly s t [⟨fileId, pageId⟩]) s := by
  cases hk : s.pageTable ⟨fileId, pageId⟩ with
  | none => exact wp_congr (getPageMut_miss hk) (request_cachesOnly h (withFile_onlyFiles _ _) true)
  | some f =>
      refine wp_congr (getPageMut_hit hk) ?_
      simp only [wp_bind, wp_pure, wp_modify]
      exact wp_mono (pinFrame_cachesOnly f _) (fun _ _ ht => ht) fun _ _ => id

end Caches

/-! ## A page is handed out -/

section Allocate

variable {I : Type} [ReliableIo I] {cap : Nat} {s : BufferPoolState (PageFile I) cap}
  {guards : List (Guard cap)} {mem : BufferKey → Option PageData}

omit [ReliableIo I] in
theorem file_of_headers {t : BufferPoolState (PageFile I) cap} (h : headers t = headers s)
    {fileId : Nat} {file : PageFile I} (hf : s.files fileId = some file) :
    ∃ file', t.files fileId = some file' ∧ file'.header = file.header := by
  have hi := congrFun h fileId
  unfold headers at hi
  rw [hf] at hi
  exact Option.map_eq_some_iff.mp hi

theorem acquireFrame_settled (h : Settled s guards) (hb : Backed s mem) :
    wp acquireFrame
      (fun f t => (Settled t guards ∧ f ∉ t.freeList ∧ (t.frames f).key = none) ∧
        CachesOnly s t [] ∧ Backed t mem ∧ headers t = headers s)
      (fun _ t => Settled t guards ∧ CachesOnly s t [] ∧ Backed t mem ∧
        headers t = headers s) s := by
  have he : @acquireFrame (PageFile I) cap (steadyStore I).toPageStore = acquireFrame :=
    acquireFrame_congr (steadyStore I).toPageStore instPageStorePageFileOfPageIo rfl rfl
  rw [← he]
  let store := steadyStore I
  refine wp_mono (wp_and (acquireFrame_cachesOnly h []) (acquireFrame_backed h hb)) ?_ ?_
  · rintro f t ⟨hc, ⟨ht, hf, hk, -⟩, hbt⟩
    exact ⟨⟨ht, hf, hk⟩, hc, hbt⟩
  · rintro e t ⟨hc, ht, hbt, -⟩
    exact ⟨ht, hc, hbt⟩

theorem getPage_caches (h : Settled s guards) (fileId pageId : Nat) :
    wp (getPage fileId pageId) (fun _ t => CachesOnly s t [⟨fileId, pageId⟩])
      (fun _ t => CachesOnly s t [⟨fileId, pageId⟩]) s := by
  have he : @getPage (PageFile I) cap (steadyStore I).toPageStore = getPage :=
    (getPage_congr (steadyStore I).toPageStore instPageStorePageFileOfPageIo rfl rfl rfl).1
  rw [← he]
  let store := steadyStore I
  exact getPage_cachesOnly h fileId pageId

theorem getPageMut_caches (h : Settled s guards) (fileId pageId : Nat) :
    wp (getPageMut fileId pageId) (fun _ t => CachesOnly s t [⟨fileId, pageId⟩])
      (fun _ t => CachesOnly s t [⟨fileId, pageId⟩]) s := by
  have he : @getPageMut (PageFile I) cap (steadyStore I).toPageStore = getPageMut :=
    (getPage_congr (steadyStore I).toPageStore instPageStorePageFileOfPageIo rfl rfl rfl).2
  rw [← he]
  let store := steadyStore I
  exact getPageMut_cachesOnly h fileId pageId

/-- What `allocate_page` leaves: the guard `g` is on page `p` of the file, which is zero. -/
structure Handed (s : BufferPoolState (PageFile I) cap) (guards : List (Guard cap))
    (mem : BufferKey → Option PageData) (fileId p : Nat) (g : Guard cap)
    (t : BufferPoolState (PageFile I) cap) : Prop where
  inv : Settled t (g :: guards)
  backed : Backed t (update mem g.key (some (Block.zero _)))
  key : g.key = ⟨fileId, p⟩
  dirty : (t.frames g.frameId).dirty = true
  header : ∃ hd hd', headers s fileId = some hd ∧ headers t fileId = some hd' ∧ p < hd'.numPages ∧
    hd.numPages ≤ hd'.numPages
  caches : CachesOnly s t [g.key]

/-- The page that the file hands out is not cached. -/
theorem allocatePage_settled (h : Settled s guards) (hb : Backed s mem) {fileId : Nat}
    {file : PageFile I} (hf : s.files fileId = some file)
    (hk : s.pageTable ⟨fileId, nextPageId file⟩ = none) :
    wp (allocatePage fileId) (fun g t => Handed s guards mem fileId (nextPageId file) g t)
      (fun _ t => Settled t guards ∧ CachesOnly s t [] ∧ Backed t mem ∧
        headers t = headers s) s := by
  unfold allocatePage
  simp only [wp_bind]
  refine wp_mono (acquireFrame_settled h hb) ?_ fun _ _ => id
  rintro f t ⟨⟨ht, hff, hkey⟩, hc, hbt, hh⟩
  obtain ⟨file', hfile', hhdr⟩ := file_of_headers hh hf
  have hid := nextPageId_congr hhdr
  rw [← hid] at hk ⊢
  have hsteady : Steady file' := by
    let store := steadyStore I
    exact ht.table.valid _ _ hfile'
  unfold allocatePageId
  rw [wp_withFile hfile']
  simp only [PageStore.allocatePage, wp_bind, wp_pure]
  refine wp_mono (allocatePage_contents hsteady) ?_ ?_
  · rintro g u ⟨hg, hu, -⟩
    have htab : t.pageTable ⟨fileId, nextPageId file'⟩ = none := hc _ List.not_mem_nil hk
    rw [hg]
    refine (wp_installFrame ?_).mpr ?_
    · exact htab
    let store := steadyStore I
    have ht' := ht.setFile hfile' ⟨hu.steady, fun q hq => hu.inUse hq⟩
    have hset : Backed { t with files := update t.files fileId (some u) }
        (update mem ⟨fileId, nextPageId file'⟩ (some (Block.zero _))) :=
      Backed.setPage hbt ht.table hfile' htab hu.contents
    have hp : Backed (BufferPoolState.place f ⟨fileId, nextPageId file'⟩ (Block.zero _) true _) _ :=
      hset.place ht'.table hkey htab (by simp)
    rw [update_idem] at hp
    have hinv :
        Settled ((BufferPoolState.place f ⟨fileId, nextPageId file'⟩ (Block.zero _) true _).touch f)
        (⟨f, ⟨fileId, nextPageId file'⟩, true⟩ :: guards) :=
      ht'.place hkey htab hff ⟨u, update_self .., hu.page_lt, hu.page.1⟩ ⟨rfl, rfl⟩
    refine ⟨hinv, hp.touch, rfl, ?_, ⟨file.header, u.header, ?_, ?_, hu.page_lt, ?_⟩, ?_⟩
    · rw [touch_eq]
      simp [withLinks, BufferPoolState.place]
    · rw [headers, hf]
      rfl
    · rw [headers_touch]
      simp [headers, BufferPoolState.place]
    · rw [← hhdr]
      exact hu.numPages_le
    · refine CachesOnly.touch (fun key hne hk => ?_) f
      have hne' : key ≠ ⟨fileId, nextPageId file'⟩ := by simpa using hne
      show update t.pageTable ⟨fileId, nextPageId file'⟩ (some f) key = none
      rw [update_of_ne hne']
      exact hc key List.not_mem_nil hk
  · rintro e u ⟨hu, hs⟩
    have hset := hbt.setFile hfile' hs.contents
    have hinv : Settled { t with files := update t.files fileId (some u) } guards := by
      let store := steadyStore I
      exact ht.setFile hfile' ⟨hu, fun q hq => (hs.inUse_iff q).mpr hq⟩
    exact ⟨hinv, hc, hset, (headers_setFile hfile' hs.header).trans hh⟩

end Allocate

end Redbase.Buffer
