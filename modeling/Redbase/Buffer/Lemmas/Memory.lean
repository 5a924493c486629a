import Redbase.Buffer.Lemmas.Methods
import Redbase.Buffer.Lemmas.Files

/-!
# What the pool remembers

`mem` is the data of every page as the clients left it. `Backed` says that the pool holds it: a
cached page in its frame, any other page in its file, and a clean cached page in both.
-/

namespace Redbase.Buffer

open Prog Bytes Page Function Linked BufferPoolState

variable {I : Type} [ReliableIo I] {cap : Nat} {s t : BufferPoolState (PageFile I) cap}
  {f : Fin cap} {guards : List (Guard cap)} {mem : BufferKey → Option PageData}

structure Backed (s : BufferPoolState (PageFile I) cap) (mem : BufferKey → Option PageData) :
    Prop where
  cached : ∀ f key, (s.frames f).key = some key → mem key = some (s.frames f).data
  stored : ∀ fileId file, s.files fileId = some file → ∀ p,
    (∀ f, s.pageTable ⟨fileId, p⟩ = some f → (s.frames f).dirty = false) →
      mem ⟨fileId, p⟩ = file.contents p

theorem backed_new (mem : BufferKey → Option PageData) :
    Backed (BufferPoolState.new (PageFile I) cap) mem where
  cached _ _ hk := by simp [BufferPoolState.new, Frame.new] at hk
  stored _ _ hf := by simp [BufferPoolState.new] at hf

theorem Backed.of_same (h : Backed s mem) (hk : ∀ x, (t.frames x).key = (s.frames x).key ∧
      (t.frames x).data = (s.frames x).data ∧ (t.frames x).dirty = (s.frames x).dirty)
    (ht : t.pageTable = s.pageTable) (hf : t.files = s.files) : Backed t mem where
  cached x key hx := by
    rw [(hk x).2.1]
    exact h.cached x key ((hk x).1 ▸ hx)
  stored i file hi p hp := by
    refine h.stored i file (hf ▸ hi) p fun x hx => ?_
    rw [← (hk x).2.2]
    exact hp x (ht ▸ hx)

/-- A call that leaves the contents of a file. -/
theorem Backed.setFile (h : Backed s mem) {fileId : Nat} {file file' : PageFile I}
    (hf : s.files fileId = some file) (hc : file'.contents = file.contents) :
    Backed { s with files := update s.files fileId (some file') } mem where
  cached := h.cached
  stored i file₀ hi p hp := by
    rcases eq_or_ne i fileId with rfl | hne
    · simp only [update_self, Option.some.injEq] at hi
      rw [← hi, hc]
      exact h.stored i file hf p hp
    · exact h.stored i file₀ (by simpa [hne] using hi) p hp

section Exact

open scoped Lawful

variable [LawfulPageStore (PageFile I)] [ExactStore I]

omit [ExactStore I] in
/-- A page that is not cached gets new contents in its file. -/
theorem Backed.setPage (h : Backed s mem) (ht : Table s) {key : BufferKey} {file file' : PageFile I}
    {data : PageData} (hf : s.files key.fileId = some file) (htab : s.pageTable key = none)
    (hc : file'.contents = update file.contents key.pageId (some data)) :
    Backed { s with files := update s.files key.fileId (some file') }
      (update mem key (some data)) where
  cached x k hx := by
    have hne : k ≠ key := by
      rintro rfl
      rw [(ht.mem_iff _ x).mpr hx] at htab
      cases htab
    rw [update_of_ne hne]
    exact h.cached x k hx
  stored i file₀ hi p hp := by
    have hi' : update s.files key.fileId (some file') i = some file₀ := hi
    rcases eq_or_ne i key.fileId with rfl | hne
    · rw [update_self, Option.some.injEq] at hi'
      rw [← hi', hc]
      rcases eq_or_ne p key.pageId with rfl | hp'
      · rw [update_self, update_self]
      · rw [update_of_ne hp', update_of_ne fun e => hp' (congrArg BufferKey.pageId e)]
        exact h.stored _ file hf p hp
    · rw [update_of_ne hne] at hi'
      rw [update_of_ne fun e => hne (congrArg BufferKey.fileId e)]
      exact h.stored i file₀ hi' p hp

omit [ExactStore I] in
/-- A dirty frame that was written back. -/
theorem Backed.setClean (h : Backed s mem) (ht : Table s) {key : BufferKey}
    {file file' : PageFile I} (hk : (s.frames f).key = some key)
    (hf : s.files key.fileId = some file)
    (hc : file'.contents = update file.contents key.pageId (some (s.frames f).data)) :
    Backed (modifyFrame f (fun frame => { frame with dirty := false })
      { s with files := update s.files key.fileId (some file') }) mem := by
  have hframes : ∀ x, ((modifyFrame f (fun frame => { frame with dirty := false })
      { s with files := update s.files key.fileId (some file') }).frames x) =
        if x = f then { s.frames f with dirty := false } else s.frames x :=
    fun x => modifyFrame_frames _ _ _ _
  constructor
  · intro x k hx
    rw [hframes] at hx ⊢
    split at hx
    next he =>
      subst he
      rw [if_pos rfl]
      exact h.cached x k hx
    next he =>
      rw [if_neg he]
      exact h.cached x k hx
  · intro i file₀ hi p hp
    have hclean : (⟨i, p⟩ : BufferKey) ≠ key → ∀ x, s.pageTable ⟨i, p⟩ = some x →
        (s.frames x).dirty = false := by
      intro hne x hx
      have hxf : x ≠ f := by
        rintro rfl
        rw [(ht.mem_iff _ _).mp hx, Option.some.injEq] at hk
        exact hne hk
      have hd := hp x hx
      rwa [hframes, if_neg hxf] at hd
    have hi' : update s.files key.fileId (some file') i = some file₀ := hi
    rcases eq_or_ne i key.fileId with rfl | hne
    · rw [update_self, Option.some.injEq] at hi'
      rw [← hi', hc]
      rcases eq_or_ne p key.pageId with rfl | hp'
      · rw [update_self]
        exact h.cached f key hk
      · rw [update_of_ne hp']
        exact h.stored _ file hf p (hclean fun e => hp' (congrArg BufferKey.pageId e))
    · rw [update_of_ne hne] at hi'
      exact h.stored i file₀ hi' p (hclean fun e => hne (congrArg BufferKey.fileId e))

omit [ExactStore I] in
theorem Backed.forget (h : Backed s mem) (ht : Table s) (hd : (s.frames f).dirty = false) :
    Backed (s.forget f) mem where
  cached x key hx := by
    rcases eq_or_ne x f with rfl | hne
    · simp [BufferPoolState.forget] at hx
    · simp only [BufferPoolState.forget, update_of_ne hne] at hx ⊢
      exact h.cached x key hx
  stored i file hi p hp := by
    refine h.stored i file hi p fun x hx => ?_
    rcases eq_or_ne x f with rfl | hne
    · exact hd
    · have hx' := hp x
      simp only [BufferPoolState.forget, update_of_ne hne] at hx'
      refine hx' ?_
      cases hk : (s.frames f).key with
      | none => exact hx
      | some key =>
          have hkey : (⟨i, p⟩ : BufferKey) ≠ key := by
            rintro rfl
            rw [(ht.mem_iff _ f).mpr hk, Option.some.injEq] at hx
            exact hne hx.symm
          simpa [hkey] using hx

omit [ExactStore I] in
/-- A page that was not cached is put into a frame. -/
theorem Backed.place (h : Backed s mem) (ht : Table s) {key : BufferKey} {data : PageData}
    {dirty : Bool} (hk : (s.frames f).key = none) (htab : s.pageTable key = none)
    (hd : dirty = false → ∀ file, s.files key.fileId = some file →
      file.contents key.pageId = some data) :
    Backed (s.place f key data dirty) (update mem key (some data)) where
  cached x k hx := by
    rcases eq_or_ne x f with rfl | hne
    · simp only [BufferPoolState.place, update_self, Option.some.injEq] at hx ⊢
      rw [hx, update_self]
    · simp only [BufferPoolState.place, update_of_ne hne] at hx ⊢
      have hkey : k ≠ key := by
        rintro rfl
        rw [(ht.mem_iff _ x).mpr hx] at htab
        cases htab
      rw [update_of_ne hkey]
      exact h.cached x k hx
  stored i file hi p hp := by
    rcases eq_or_ne (⟨i, p⟩ : BufferKey) key with rfl | hne
    · have hdirty := hp f (by simp [BufferPoolState.place])
      simp only [BufferPoolState.place, update_self] at hdirty
      rw [update_self]
      exact (hd hdirty file hi).symm
    · rw [update_of_ne hne]
      refine h.stored i file hi p fun x hx => ?_
      have hxf : x ≠ f := by
        rintro rfl
        rw [(ht.mem_iff _ _).mp hx] at hk
        cases hk
      have hdirty := hp x (by simpa [BufferPoolState.place, hne] using hx)
      simpa [BufferPoolState.place, hxf] using hdirty

/-! ## Frames -/

/-- The headers of the registered files. -/
def headers (s : BufferPoolState (PageFile I) cap) (fileId : Nat) : Option FileHeader :=
  (s.files fileId).map (·.header)

omit [ReliableIo I] [LawfulPageStore (PageFile I)] [ExactStore I] in
theorem headers_setFile {fileId : Nat} {file file' : PageFile I} (hf : s.files fileId = some file)
    (hh : file'.header = file.header) :
    headers { s with files := update s.files fileId (some file') } = headers s := by
  funext i
  rcases eq_or_ne i fileId with rfl | hne
  · simp [headers, hf, hh]
  · simp [headers, hne]

theorem flushFrameIfDirty_backed (h : Inv s guards) (hb : Backed s mem) :
    wp (flushFrameIfDirty f)
      (fun _ t => (Inv t guards ∧ ∃ files,
          t = modifyFrame f (fun frame => { frame with dirty := false }) { s with files }) ∧
        Backed t mem ∧ headers t = headers s)
      never s := by
  have hw : wp (flushFrameIfDirty f) (fun _ t => Backed t mem ∧ headers t = headers s) never s := by
    refine wp_flushFrameIfDirty (fun _ => ⟨hb, rfl⟩) fun hd => ?_
    cases hk : (s.frames f).key with
    | none => simp [(h.table.idle f hk).2] at hd
    | some key =>
        obtain ⟨file, hfile, hu⟩ := h.table.registered f key hk
        refine ⟨key, file, rfl, hfile, ?_⟩
        refine wp_mono (ExactStore.write_exact file _ _ (h.table.valid _ _ hfile) hu)
          ?_ fun _ _ => id
        rintro _ file' ⟨hc, hh⟩
        exact ⟨hb.setClean h.table hk hfile hc, headers_setFile hfile hh⟩
  exact wp_mono (wp_and (flushFrameIfDirty_inv h) hw) (fun _ _ h => h) fun _ _ h => h.2

theorem acquireFrame_backed (h : Inv s guards) (hb : Backed s mem) :
    wp acquireFrame
      (fun f t => (Inv t guards ∧ f ∉ t.freeList ∧ (t.frames f).key = none ∧
        ∀ key, s.pageTable key = none → t.pageTable key = none) ∧ Backed t mem ∧
          headers t = headers s)
      (fun e t => Inv t guards ∧ (Backed t mem ∧ headers t = headers s) ∧
        e = .error .noFrameAvailable ∧ ∀ f, (s.frames f).pinCount ≠ 0) s := by
  obtain ⟨l, hl⟩ := h.order
  have hw : wp acquireFrame (fun _ t => Backed t mem ∧ headers t = headers s) (fun e t =>
      (Backed t mem ∧ headers t = headers s) ∧ e = .error .noFrameAvailable ∧
        ∀ f, (s.frames f).pinCount ≠ 0) s := by
    refine acquireFrame_spec hl
      (fun f rest _ => ⟨hb.of_same (fun _ => ⟨rfl, rfl, rfl⟩) rfl rfl, rfl⟩)
      (fun _ hp => ⟨⟨hb, rfl⟩, rfl, hp⟩) fun hfl f h0 => ?_
    refine wp_mono (flushFrameIfDirty_backed h hb) ?_ fun _ _ => False.elim
    rintro _ t ⟨⟨ht, files, he⟩, hbt, hh⟩
    have hd : (t.frames f).dirty = false := by rw [he, modifyFrame_frames, if_pos rfl]
    exact ⟨(hbt.forget ht.table hd).of_same (fun _ => ⟨rfl, rfl, rfl⟩) rfl rfl, hh⟩
  exact wp_mono (wp_and (acquireFrame_inv h) hw) (fun _ _ h => h) fun _ _ h => ⟨h.1.1, h.2⟩

/-! ## Pages -/

/-- Why a page could not be had. -/
def GetFails (s : BufferPoolState (PageFile I) cap) (mem : BufferKey → Option PageData)
    (key : BufferKey) (why : Stop BufferPoolError) : Prop :=
  (why = .error .noFrameAvailable ∧ ∀ f, (s.frames f).pinCount ≠ 0) ∨
    (why = .error (.unknownFile key.fileId) ∧ s.files key.fileId = none) ∨
    (why = .error (.pageStore (.invalidPageId key.pageId)) ∧ mem key = none) ∨
    (why = .panic ∧ ∃ f, 2 ^ 32 ≤ (s.frames f).pinCount + 1)

omit [ReliableIo I] [LawfulPageStore (PageFile I)] [ExactStore I] in
theorem files_none_of_headers (h : headers t = headers s) {fileId : Nat}
    (hf : t.files fileId = none) :
    s.files fileId = none := by
  have hi := congrFun h fileId
  simpa [headers, hf, eq_comm] using hi

theorem loadFrame_backed (h : Inv s guards) (hb : Backed s mem) {key : BufferKey} {dirty : Bool}
    (hk : s.pageTable key = none) (writable : Bool) :
    wp (loadFrame key dirty)
      (fun f t => Inv t (⟨f, key, writable⟩ :: guards) ∧ Backed t mem ∧ headers t = headers s ∧
        (t.frames f).dirty = dirty)
      (fun e t => Inv t guards ∧ (Backed t mem ∧ headers t = headers s) ∧
        GetFails s mem key e) s := by
  have hw : wp (loadFrame key dirty)
      (fun f t => Backed t mem ∧ headers t = headers s ∧ (t.frames f).dirty = dirty)
      (fun e t => (Backed t mem ∧ headers t = headers s) ∧ GetFails s mem key e) s := by
    unfold loadFrame
    simp only [wp_bind]
    refine wp_mono (acquireFrame_backed h hb) ?_ fun _ _ ht => ⟨ht.2.1, Or.inl ht.2.2⟩
    rintro f t ⟨⟨ht, hf, hkey, htab⟩, hbt, hh⟩
    unfold readPageData
    cases hfile : t.files key.fileId with
    | none =>
        rw [wp_withFile_unknown hfile]
        exact ⟨⟨hbt, hh⟩, Or.inr (Or.inl ⟨rfl, files_none_of_headers hh hfile⟩)⟩
    | some file =>
        have hvalid := ht.table.valid _ _ hfile
        have hmem : mem key = file.contents key.pageId :=
          hbt.stored _ file hfile _ fun x hx => by rw [htab _ hk] at hx; cases hx
        rw [wp_withFile hfile]
        refine wp_mono (wp_and (LawfulPageStore.read_law file key.pageId hvalid)
          (ExactStore.read_exact file key.pageId hvalid)) ?_ ?_
        · rintro data file' ⟨⟨hlaw, -⟩, ⟨hc, hhdr⟩, hd⟩
          refine (wp_installFrame ?_).mpr ?_
          · exact htab key hk
          have hp : Backed (BufferPoolState.place f key data dirty _) _ :=
            (hbt.setFile hfile hc).place (ht.table.setFile hfile hlaw) hkey (htab key hk)
              fun _ file₀ h₀ => by
              simp only [update_self, Option.some.injEq] at h₀
              rw [← h₀, hc, hd]
          rw [show update mem key (some data) = mem by
            rw [← hd, ← hmem, update_eq_self]] at hp
          rw [touch_eq]
          refine ⟨hp.of_same (fun _ => ⟨rfl, rfl, rfl⟩) rfl rfl,
            (headers_setFile hfile hhdr).trans hh, ?_⟩
          simp [withLinks, BufferPoolState.place]
        · rintro _ file' ⟨-, ⟨hc, hhdr⟩, hd, rfl⟩
          exact ⟨⟨hbt.setFile hfile hc, (headers_setFile hfile hhdr).trans hh⟩,
            Or.inr (Or.inr (Or.inl ⟨rfl, hmem.trans hd⟩))⟩
  exact wp_mono (wp_and (loadFrame_inv h hk writable) hw) (fun _ _ h => h) fun _ _ h => ⟨h.1.1, h.2⟩

omit [LawfulPageStore (PageFile I)] [ExactStore I] in
theorem Backed.touch (h : Backed s mem) : Backed (s.touch f) mem := by
  rw [touch_eq]
  exact h.of_same (fun _ => ⟨rfl, rfl, rfl⟩) rfl rfl

omit [ReliableIo I] [LawfulPageStore (PageFile I)] [ExactStore I] in
theorem headers_touch : headers (s.touch f) = headers s := by
  rw [touch_eq]
  rfl

omit [ExactStore I] in
theorem pinFrame_backed (h : Inv s guards) (hb : Backed s mem) {key : BufferKey}
    (hk : s.pageTable key = some f) (writable : Bool) :
    wp (pinFrame f)
      (fun _ t => (Inv t (⟨f, key, writable⟩ :: guards) ∧ (t.frames f).key = some key) ∧
        Backed t mem ∧ headers t = headers s)
      (fun e t => Inv t guards ∧ (Backed t mem ∧ headers t = headers s) ∧
        GetFails s mem key e) s := by
  have hw : wp (pinFrame f) (fun _ t => Backed t mem ∧ headers t = headers s)
      (fun e t => (Backed t mem ∧ headers t = headers s) ∧ GetFails s mem key e) s := by
    unfold pinFrame
    simp only [wp_bind, wp_get]
    cases hc : checked 32 ((s.frames f).pinCount + 1) with
    | none =>
        refine ⟨⟨hb, rfl⟩, Or.inr (Or.inr (Or.inr ⟨rfl, f, ?_⟩))⟩
        by_contra hlt
        rw [checked_of_lt (Nat.lt_of_not_le hlt)] at hc
        cases hc
    | some pinCount =>
        simp only [wp_bind, wp_modify]
        refine ⟨Backed.touch (hb.of_same (fun x => ?_) rfl rfl), headers_touch⟩
        rw [modifyFrame_frames]
        split
        next he => exact ⟨by rw [he], by rw [he], by rw [he]⟩
        next => exact ⟨rfl, rfl, rfl⟩
  exact wp_mono (wp_and (pinFrame_inv h hk writable) hw) (fun _ _ h => h) fun _ _ h => ⟨h.1.1, h.2⟩

theorem getPage_backed (h : Inv s guards) (hb : Backed s mem) (fileId pageId : Nat) :
    wp (getPage fileId pageId)
      (fun g t => Inv t (g :: guards) ∧ Backed t mem ∧ g.key = ⟨fileId, pageId⟩ ∧
        headers t = headers s)
      (fun e t => Inv t guards ∧ (Backed t mem ∧ headers t = headers s) ∧
        GetFails s mem ⟨fileId, pageId⟩ e) s := by
  unfold getPage
  simp only [wp_bind, wp_get]
  cases hk : s.pageTable ⟨fileId, pageId⟩ with
  | none =>
      simp only [wp_bind, wp_pure]
      exact wp_mono (loadFrame_backed h hb hk false)
        (fun _ _ ht => ⟨ht.1, ht.2.1, trivial, ht.2.2.1⟩)
        fun _ _ h => h
  | some f =>
      simp only [wp_bind, wp_pure]
      exact wp_mono (pinFrame_backed h hb hk false)
        (fun _ _ ht => ⟨ht.1.1, ht.2.1, trivial, ht.2.2⟩)
        fun _ _ h => h

omit [LawfulPageStore (PageFile I)] [ExactStore I] in
/-- Marking a frame dirty forgets nothing. -/
theorem Backed.setDirty (hb : Backed s mem) :
    Backed (s.modifyFrame f fun frame => { frame with dirty := true }) mem where
  cached x key hx := by
    rw [modifyFrame_frames] at hx ⊢
    split at hx
    next he => subst he; rw [if_pos rfl]; exact hb.cached x key hx
    next he => rw [if_neg he]; exact hb.cached x key hx
  stored i file hi p hp := by
    refine hb.stored i file hi p fun x hx => ?_
    have hd := hp x hx
    rw [modifyFrame_frames] at hd
    split at hd
    next => cases hd
    next => exact hd

theorem getPageMut_backed (h : Inv s guards) (hb : Backed s mem) (fileId pageId : Nat) :
    wp (getPageMut fileId pageId)
      (fun g t => Inv t (g :: guards) ∧ Backed t mem ∧ (g.key = ⟨fileId, pageId⟩ ∧
        (t.frames g.frameId).dirty = true) ∧ headers t = headers s)
      (fun e t => Inv t guards ∧ (Backed t mem ∧ headers t = headers s) ∧
        GetFails s mem ⟨fileId, pageId⟩ e) s := by
  unfold getPageMut
  simp only [wp_bind, wp_get]
  cases hk : s.pageTable ⟨fileId, pageId⟩ with
  | none =>
      simp only [wp_bind, wp_pure]
      exact wp_mono (loadFrame_backed h hb hk true)
        (fun _ _ ht => ⟨ht.1, ht.2.1, ⟨trivial, ht.2.2.2⟩, ht.2.2.1⟩) fun _ _ h => h
  | some f =>
      simp only [wp_bind, wp_pure, wp_modify]
      refine wp_mono (pinFrame_backed h hb hk true) ?_ fun _ _ h => h
      rintro _ t ⟨⟨ht, hkey⟩, hbt, hh⟩
      refine ⟨ht.setDirty fun _ => by simp [hkey], hbt.setDirty, ⟨trivial, ?_⟩, hh⟩
      rw [modifyFrame_frames, if_pos rfl]

end Exact

/-- The header of a file after `allocate_page`. -/
theorem headers_allocate {fileId : Nat} {file file' : PageFile I} {st : Store}
    (hf : s.files fileId = some file) (hst : Represents file st)
    (hst' : Represents file' st.allocate) {n : Nat}
    (hh : headers s fileId = some ⟨freeListEnd, n⟩) :
    st.nextId = n ∧ headers { s with files := update s.files fileId (some file') } =
      update (headers s) fileId (some ⟨freeListEnd, n + 1⟩) := by
  have hhd : file.header = ⟨freeListEnd, n⟩ := by simpa [headers, hf] using hh
  have hfree : st.free = [] := by
    rcases hst.firstFree_eq with ⟨_, hnil⟩ | ⟨p, free, _, he⟩
    · exact hnil
    · rw [hhd, link] at he
      simp only [freeListEnd] at he
      omega
  have hn : st.numPages = n := by rw [← hst.numPages, hhd]
  have hhd' : file'.header = ⟨freeListEnd, n + 1⟩ := by
    have hnum := hst'.numPages
    have hchain := hst'.chain
    rw [Store.allocate_numPages, if_pos hfree, hn] at hnum
    rw [Store.allocate_free, hfree] at hchain
    have he := hchain.eq_nil
    cases hx : file'.header
    rw [hx] at hnum he
    cases hnum
    cases he
    rfl
  refine ⟨by simp [Store.nextId, hfree, hn], ?_⟩
  funext i
  rcases eq_or_ne i fileId with rfl | hne
  · simp [headers, hhd']
  · simp [headers, hne]

/-- A file that never had a page disposed of hands out its page numbers in order. -/
theorem allocatePage_backed (h : Inv s guards) (hb : Backed s mem) (fileId : Nat) :
    wp (allocatePage fileId)
      (fun g t => Inv t (g :: guards) ∧ Backed t (update mem g.key (some (Block.zero _))) ∧
        (g.key.fileId = fileId ∧ (t.frames g.frameId).dirty = true) ∧
        ∀ n, headers s fileId = some ⟨freeListEnd, n⟩ → g.key.pageId = n ∧
          headers t = update (headers s) fileId (some ⟨freeListEnd, n + 1⟩))
      (fun e t => Inv t guards ∧ Backed t mem ∧
        ((e = .error .noFrameAvailable ∧ ∀ f, (s.frames f).pinCount ≠ 0) ∨
          (e = .error (.unknownFile fileId) ∧ s.files fileId = none) ∨
          ∃ n, headers s fileId = some ⟨freeListEnd, n⟩ ∧ n + 1 = 2 ^ 32 ∧
            headers t = headers s)) s := by
  have hw : wp (allocatePage fileId)
      (fun g t => Backed t (update mem g.key (some (Block.zero _))) ∧
        (g.key.fileId = fileId ∧ (t.frames g.frameId).dirty = true) ∧
        ∀ n, headers s fileId = some ⟨freeListEnd, n⟩ → g.key.pageId = n ∧
          headers t = update (headers s) fileId (some ⟨freeListEnd, n + 1⟩))
      (fun e t => Backed t mem ∧
        ((e = .error .noFrameAvailable ∧ ∀ f, (s.frames f).pinCount ≠ 0) ∨
          (e = .error (.unknownFile fileId) ∧ s.files fileId = none) ∨
          ∃ n, headers s fileId = some ⟨freeListEnd, n⟩ ∧ n + 1 = 2 ^ 32 ∧
            headers t = headers s)) s := by
    unfold allocatePage
    simp only [wp_bind]
    refine wp_mono (acquireFrame_backed h hb) ?_ fun _ _ ht => ⟨ht.2.1.1, Or.inl ht.2.2⟩
    rintro f t ⟨⟨ht, hf, hkey, htab⟩, hbt, hh⟩
    unfold allocatePageId
    cases hfile : t.files fileId with
    | none =>
        rw [wp_withFile_unknown hfile]
        exact ⟨hbt, Or.inr (Or.inl ⟨rfl, files_none_of_headers hh hfile⟩)⟩
    | some file =>
        obtain ⟨st, hst⟩ := ht.table.valid _ _ hfile
        rw [wp_withFile hfile]
        refine wp_mono (storeAllocate_spec hst) ?_ ?_
        · rintro p file' ⟨rfl, hst'⟩
          have hview : st.view st.nextId = none := st.view_nextId
          have htab' : t.pageTable ⟨fileId, st.nextId⟩ = none := by
            cases hx : t.pageTable ⟨fileId, st.nextId⟩ with
            | none => rfl
            | some x =>
                obtain ⟨file₀, h₀, hu₀⟩ := ht.table.registered x _ ((ht.table.mem_iff _ x).mp hx)
                rw [hfile, Option.some.injEq] at h₀
                subst h₀
                exact absurd ((hst.inUse_iff _).mp hu₀) st.not_inUse_nextId
          refine (wp_installFrame ?_).mpr ?_
          · exact htab'
          have hc : file'.contents = update file.contents st.nextId (some (Block.zero _)) := by
            rw [hst'.contents_eq, hst.contents_eq, st.view_allocate]
          have ht' := ht.table.setFile hfile ⟨⟨_, hst'⟩, fun q hq =>
            (hst'.inUse_iff q).mpr ((st.inUse_allocate q).mpr (Or.inr ((hst.inUse_iff q).mp hq)))⟩
          have hset := Backed.setPage hbt ht.table hfile htab' hc
          have hp : Backed (BufferPoolState.place f ⟨fileId, st.nextId⟩ (Block.zero _) true _) _ :=
            hset.place ht' hkey htab' (by simp)
          rw [update_idem] at hp
          refine ⟨hp.touch, ⟨rfl, ?_⟩, fun n hn => ?_⟩
          · rw [touch_eq]
            simp [withLinks, BufferPoolState.place]
          · rw [← hh] at hn ⊢
            have ha := headers_allocate hfile hst hst' hn
            exact ⟨ha.1, headers_touch.trans ha.2⟩
        · rintro _ file' ⟨hst', hfree, hn⟩
          refine ⟨hbt.setFile hfile ?_, Or.inr (Or.inr ⟨st.numPages, ?_, hn, ?_⟩)⟩
          · rw [hst'.contents_eq, hst.contents_eq]
          · have hhd : file.header = ⟨freeListEnd, st.numPages⟩ := by
              have hn := hst.numPages
              have he := (hfree ▸ hst.chain).eq_nil
              cases hx : file.header
              rw [hx] at hn he
              cases hn
              cases he
              rfl
            rw [← hh]
            simp [headers, hfile, hhd]
          · rw [← hh]
            funext i
            rcases eq_or_ne i fileId with rfl | hne
            · simp [headers, hfile, hst'.header_eq hst rfl rfl]
            · simp [headers, hne]
  exact wp_mono (wp_and (allocatePage_inv h fileId) hw) (fun _ _ h => h) fun _ _ h => ⟨h.1.1, h.2⟩

/-! ## Files -/

/-- The file with this id is stored as it is shown. -/
def Synced (s : BufferPoolState (PageFile I) cap) (fileId : Nat) : Prop :=
  ∃ file, s.files fileId = some file ∧ Flushed file file

theorem flushRegistered_backed (h : Inv s guards) (hb : Backed s mem) {fileId : Nat}
    {file : PageFile I} (hf : s.files fileId = some file) :
    wp (withFile fileId PageStore.flush)
      (fun _ t => (Inv t guards ∧ ∃ files, t = { s with files }) ∧ Backed t mem ∧
        headers t = headers s ∧ Synced t fileId) never s := by
  have hw : wp (withFile fileId PageStore.flush)
      (fun _ t => Backed t mem ∧ headers t = headers s ∧ Synced t fileId) never s := by
    obtain ⟨st, hst⟩ := h.table.valid _ _ hf
    rw [wp_withFile hf]
    refine wp_mono (storeFlush_spec hst) ?_ fun _ _ => id
    rintro _ file' ⟨hst', hfl⟩
    refine ⟨hb.setFile hf ?_, headers_setFile hf hfl.header, file', by simp, hfl.self⟩
    rw [hst'.contents_eq, hst.contents_eq]
  exact wp_mono (wp_and (flushRegistered_inv h fileId) hw) (fun _ _ h => h) fun _ _ h => h.2

theorem flushAll_backed (h : Inv s guards) (hb : Backed s mem) (l : List (Fin cap)) :
    wp (l.forM flushFrameIfDirty)
      (fun _ t => Inv t guards ∧ Backed t mem ∧ headers t = headers s ∧
        ∀ x, (t.frames x).key = (s.frames x).key ∧
          ((x ∈ l ∨ (s.frames x).dirty = false) → (t.frames x).dirty = false)) never s := by
  induction l generalizing s with
  | nil => exact ⟨h, hb, rfl, fun _ => ⟨rfl, by simp⟩⟩
  | cons f l ih =>
      show wp (flushFrameIfDirty f >>= fun _ => l.forM flushFrameIfDirty) _ _ _
      rw [wp_bind]
      refine wp_mono (flushFrameIfDirty_backed h hb) ?_ fun _ _ => id
      rintro _ t ⟨⟨ht, files, he⟩, hbt, hh⟩
      refine wp_mono (ih ht hbt) ?_ fun _ _ => id
      rintro _ u ⟨hu, hbu, hh', hx⟩
      refine ⟨hu, hbu, hh'.trans hh, fun x => ⟨(hx x).1.trans ?_, fun hxl => (hx x).2 ?_⟩⟩
      · rw [he, modifyFrame_frames]
        split
        next hxf => rw [hxf]
        next => rfl
      · rw [he, modifyFrame_frames]
        split
        next => exact Or.inr rfl
        next hxf => simpa [hxf] using hxl

/-- Afterwards the file holds every page that the call was about. -/
theorem forceFile_backed (h : Inv s guards) (hb : Backed s mem) (fileId : Nat)
    (pageId : Option Nat) :
    wp (forceFile fileId pageId)
      (fun _ t => Inv t guards ∧ Backed t mem ∧ headers t = headers s ∧ Synced t fileId ∧
        ∀ p, pageId = none ∨ pageId = some p → ∀ x, t.pageTable ⟨fileId, p⟩ = some x →
          (t.frames x).dirty = false)
      (fun e t => Inv t guards ∧ Backed t mem ∧ e = .error (.unknownFile fileId) ∧
        s.files fileId = none) s := by
  unfold forceFile
  simp only [wp_bind, wp_get, wp_ite, wp_throw]
  split
  next hf => exact ⟨h, hb, trivial, by simpa using hf⟩
  next hf =>
    refine wp_mono (flushAll_backed h hb _) ?_ fun _ _ => False.elim
    rintro _ t ⟨ht, hbt, hh, hx⟩
    cases hfile : t.files fileId with
    | none => simp [files_none_of_headers hh hfile] at hf
    | some file =>
        refine wp_mono (flushRegistered_backed ht hbt hfile) ?_ fun _ _ => False.elim
        rintro _ _ ⟨⟨hu, files, rfl⟩, hbu, hh', hsync⟩
        refine ⟨hu, hbu, hh'.trans hh, hsync, fun p hp x hxt => (hx x).2 (Or.inl ?_)⟩
        refine mem_matching.mpr ⟨⟨fileId, p⟩, ?_, rfl, hp⟩
        rw [← (hx x).1]
        exact (ht.table.mem_iff _ x).mp hxt

theorem evictFrame_backed (h : Table s) (hb : Backed s mem) (h0 : (s.frames f).pinCount = 0)
    (hd : (s.frames f).dirty = false)
    {E : Stop BufferPoolError → BufferPoolState (PageFile I) cap → Prop} :
    wp (evictFrame f) (fun _ t => Backed t mem ∧ headers t = headers s) E s := by
  rw [wp_evictFrame h0, unlink_eq]
  exact ⟨(hb.forget h hd).of_same (fun _ => ⟨rfl, rfl, rfl⟩) rfl rfl, rfl⟩

theorem evictAll_backed (h : Inv s guards) (hb : Backed s mem) {l : List (Fin cap)} (hn : l.Nodup)
    (h0 : ∀ f ∈ l, (s.frames f).pinCount = 0 ∧ f ∉ s.freeList) :
    wp (l.forM fun f => do flushFrameIfDirty f; evictFrame f)
      (fun _ t => Backed t mem ∧ headers t = headers s) never s := by
  induction l generalizing s with
  | nil => exact ⟨hb, rfl⟩
  | cons f l ih =>
      obtain ⟨hf, hn⟩ := List.nodup_cons.mp hn
      show wp ((do flushFrameIfDirty f; evictFrame f) >>= fun _ =>
        l.forM fun f => do flushFrameIfDirty f; evictFrame f) _ _ _
      simp only [wp_bind]
      refine wp_mono (flushFrameIfDirty_backed h hb) ?_ fun _ _ => id
      rintro _ t ⟨⟨ht, files, he⟩, hbt, hh⟩
      have hpin : ∀ x, (t.frames x).pinCount = (s.frames x).pinCount := by
        intro x
        rw [he, modifyFrame_frames]
        split
        next hxf => rw [hxf]
        next => rfl
      have hf0 := h0 f (by simp)
      have hfree : t.freeList = s.freeList := by rw [he]; rfl
      have hd : (t.frames f).dirty = false := by rw [he, modifyFrame_frames, if_pos rfl]
      have h0t := (hpin f).trans hf0.1
      refine wp_mono (wp_and (evictFrame_inv ht h0t (hfree ▸ hf0.2))
        (evictFrame_backed (E := never) ht.table hbt h0t hd)) ?_ fun _ _ h => h.1
      rintro _ u ⟨⟨hu, hfree', hkeys⟩, hbu, hh'⟩
      refine wp_mono (ih hu hbu hn fun x hx => ⟨?_, ?_⟩) ?_ fun _ _ => id
      · rw [(hkeys x).2, hpin x]
        exact (h0 x (by simp [hx])).1
      · rw [hfree', hfree]
        intro hm
        rcases List.mem_cons.mp hm with rfl | hm
        · exact hf hx
        · exact (h0 x (by simp [hx])).2 hm
      · rintro _ v ⟨hv, hh''⟩
        exact ⟨hv, hh''.trans (hh'.trans hh)⟩

theorem flushFile_backed (h : Inv s guards) (hb : Backed s mem) (fileId : Nat) :
    wp (flushFile fileId)
      (fun _ t => (Inv t guards ∧ ∀ x key, (t.frames x).key = some key → key.fileId ≠ fileId) ∧
        Backed t mem ∧ headers t = headers s ∧ Synced t fileId)
      (fun e t => Inv t guards ∧ Backed t mem ∧
        ((e = .error (.unknownFile fileId) ∧ s.files fileId = none) ∨
          (e = .error (.fileHasPinnedPages fileId) ∧ ∃ f, (s.frames f).pinCount ≠ 0))) s := by
  have hw : wp (flushFile fileId)
      (fun _ t => Backed t mem ∧ headers t = headers s ∧ Synced t fileId)
      (fun e t => Backed t mem ∧ ((e = .error (.unknownFile fileId) ∧ s.files fileId = none) ∨
          (e = .error (.fileHasPinnedPages fileId) ∧ ∃ f, (s.frames f).pinCount ≠ 0))) s := by
    unfold flushFile
    simp only [wp_bind, wp_get, wp_ite, wp_throw]
    split
    next hf => exact ⟨hb, Or.inl ⟨trivial, by simpa using hf⟩⟩
    next hf =>
      split
      next hpin =>
        obtain ⟨f, _, hpos⟩ := List.any_eq_true.mp hpin
        exact ⟨hb, Or.inr ⟨trivial, f, Nat.pos_iff_ne_zero.mp (by simpa using hpos)⟩⟩
      next hpin =>
        have h0 := unpinned_of_matching h hpin
        refine wp_mono (wp_and (evictAll_inv h (matching_nodup _ _ _) h0)
          (evictAll_backed h hb (matching_nodup _ _ _) h0)) ?_ fun _ _ => fun h => h.2.elim
        rintro _ t ⟨⟨ht, -⟩, hbt, hh⟩
        cases hfile : t.files fileId with
        | none => simp [files_none_of_headers hh hfile] at hf
        | some file =>
            refine wp_mono (flushRegistered_backed ht hbt hfile) ?_ fun _ _ => False.elim
            rintro _ u ⟨-, hbu, hh', hsync⟩
            exact ⟨hbu, hh'.trans hh, hsync⟩
  exact wp_mono (wp_and (flushFile_inv h fileId) hw) (fun _ _ h => h) fun _ _ h => ⟨h.1.1, h.2⟩

/-- The file that `remove_file` hands back holds what the clients left. -/
theorem removeFile_backed (h : Inv s guards) (hb : Backed s mem) (fileId : Nat) :
    wp (removeFile fileId)
      (fun file t => Inv t guards ∧ Backed t mem ∧ ∀ p, file.contents p = mem ⟨fileId, p⟩)
      (fun _ t => Inv t guards ∧ Backed t mem) s := by
  have hw : wp (removeFile fileId)
      (fun file t => Backed t mem ∧ ∀ p, file.contents p = mem ⟨fileId, p⟩)
      (fun _ t => Backed t mem) s := by
    unfold removeFile
    simp only [wp_bind, wp_get]
    refine wp_mono (flushFile_backed h hb fileId) ?_ fun _ _ h => h.2.1
    rintro _ t ⟨⟨ht, hkeys⟩, hbt, -, -⟩
    cases hfile : t.files fileId with
    | none => exact hbt
    | some file =>
        simp only [wp_bind, wp_modify, wp_pure]
        refine ⟨⟨hbt.cached, fun i file₀ hi p hp => ?_⟩, fun p => ?_⟩
        · rcases eq_or_ne i fileId with rfl | hne
          · simp at hi
          · exact hbt.stored i file₀ (by simpa [hne] using hi) p hp
        · refine (hbt.stored _ file hfile p fun x hx => ?_).symm
          exact absurd rfl (hkeys x _ ((ht.table.mem_iff _ x).mp hx))
  exact wp_mono (wp_and (removeFile_inv h fileId) hw) (fun _ _ h => ⟨h.1.1, h.2⟩)
    fun _ _ h => ⟨h.1.1, h.2⟩

/-- A new file brings its contents. -/
theorem registerFile_backed [LawfulPageStore (PageFile I)] (h : Inv s guards) (hb : Backed s mem)
    {file : PageFile I} (hv : LawfulPageStore.Valid file) :
    wp (registerFile file)
      (fun i t => Inv t guards ∧
        Backed t (fun key => if key.fileId = i then file.contents key.pageId else mem key) ∧
        i = s.nextFileId ∧ t.files = update s.files i (some file))
      (fun _ t => Inv t guards ∧ Backed t mem ∧ 2 ^ 32 ≤ s.nextFileId + 1) s := by
  have hw : wp (registerFile file)
      (fun i t => Backed t (fun key => if key.fileId = i then file.contents key.pageId
      else mem key) ∧
        i = s.nextFileId ∧ t.files = update s.files i (some file))
      (fun _ t => Backed t mem ∧ 2 ^ 32 ≤ s.nextFileId + 1) s := by
    unfold registerFile
    simp only [wp_bind, wp_get]
    cases hc : checked 32 (s.nextFileId + 1) with
    | none =>
        refine ⟨hb, ?_⟩
        by_contra hlt
        rw [checked_of_lt (Nat.lt_of_not_le hlt)] at hc
        cases hc
    | some nextFileId =>
        simp only [wp_bind, wp_modify, wp_pure]
        refine ⟨⟨fun x key hx => ?_, fun i file₀ hi p hp => ?_⟩, trivial, trivial⟩
        · obtain ⟨file₀, h₀, -⟩ := h.table.registered x key hx
          rw [if_neg]
          · exact hb.cached x key hx
          · intro he
            rw [he, h.table.fresh _ (Nat.le_refl _)] at h₀
            cases h₀
        · rcases eq_or_ne i s.nextFileId with rfl | hne
          · simp only [update_self, Option.some.injEq] at hi
            rw [if_pos rfl, hi]
          · rw [if_neg hne]
            exact hb.stored i file₀ (by simpa [hne] using hi) p hp
  exact wp_mono (wp_and (registerFile_inv h hv) hw) (fun _ _ h => ⟨h.1, h.2⟩)
    fun _ _ h => ⟨h.1.1, h.2⟩

/-! ## Guards -/

theorem Backed.unpin (hb : Backed s mem) : Backed (s.unpinFrame f) mem := by
  rw [unpinFrame]
  split
  next => exact hb
  next =>
    have ht : Backed
        (s.modifyFrame f fun frame => { frame with pinCount := frame.pinCount - 1 }) mem := by
      refine hb.of_same (fun x => ?_) rfl rfl
      rw [modifyFrame_frames]
      split
      next he => exact ⟨by rw [he], by rw [he], by rw [he]⟩
      next => exact ⟨rfl, rfl, rfl⟩
    show Backed (if _ then _ else _) mem
    split
    next => exact ht.touch
    next => exact ht

/-- A write to a dirty frame becomes what the pool remembers of its page. -/
theorem Backed.write [LawfulPageStore (PageFile I)] (hb : Backed s mem) (ht : Table s)
    {key : BufferKey} {data : PageData} (hk : (s.frames f).key = some key)
    (hd : (s.frames f).dirty = true) :
    Backed (s.modifyFrame f fun frame => { frame with data }) (update mem key (some data)) where
  cached x k hx := by
    rw [modifyFrame_frames] at hx ⊢
    split at hx
    next he =>
      subst he
      rw [if_pos rfl]
      obtain rfl : key = k := Option.some.inj (hk.symm.trans hx)
      rw [update_self]
    next he =>
      have hne : k ≠ key := by
        rintro rfl
        have h₁ := (ht.mem_iff _ _).mpr hx
        rw [(ht.mem_iff _ _).mpr hk, Option.some.injEq] at h₁
        exact he h₁.symm
      rw [if_neg he, update_of_ne hne]
      exact hb.cached x k hx
  stored i file hi p hp := by
    have hclean : ∀ x, s.pageTable ⟨i, p⟩ = some x → (s.frames x).dirty = false := by
      intro x hx
      have hx' := hp x hx
      rw [modifyFrame_frames] at hx'
      split at hx'
      next he => rw [he]; exact hx'
      next => exact hx'
    have hne : (⟨i, p⟩ : BufferKey) ≠ key := by
      rintro rfl
      rw [hclean f ((ht.mem_iff _ f).mpr hk)] at hd
      cases hd
    rw [update_of_ne hne]
    exact hb.stored i file hi p hclean

end Redbase.Buffer
