import Redbase.Buffer.Recency
import Redbase.Buffer.Lemmas.Run
import Redbase.Buffer.Lemmas.Files

/-!
# The list of frames is in the order of the last touches

Every method keeps this, however it ends.
-/

namespace Redbase.Page

open Prog PageFile ByteIo

/-- A page that was written back has its header and its data in the file. -/
instance {I : Type} [ReliableIo I] : DurablePageStore (PageFile I) where
  OnDisk file p data := (pageAt (content file.io) p).nextFree = pageUsed ∧
    (pageAt (content file.io) p).data = data
  writeBack_law file p data h := by
    obtain ⟨st, hst⟩ := h
    simp only [wp_bind]
    refine wp_mono (storeWrite_spec hst data) ?_ fun _ _ _ => trivial
    rintro _ file₁ ⟨hu, h₁⟩
    refine wp_mono (storeFlush_spec h₁) ?_ fun _ _ => False.elim
    rintro _ file₂ ⟨-, hflushed⟩
    have hu' : (st.write p data).InUse p := hu
    rw [hflushed.pages p (h₁.lt_numPages hu'), h₁.used p hu', h₁.data p hu', Store.write_data,
      Function.update_self]
    exact ⟨rfl, rfl⟩

end Redbase.Page

namespace Redbase.Buffer

open Prog Bytes Page Function Linked BufferPoolState World Recency

variable {F : Type} {cap : Nat} {s t : BufferPoolState F cap} {l log : List (Fin cap)} {f : Fin cap}
  {guards : List (Guard cap)}

/-- The frames in use, most recently used first, are in the order of their last touches. -/
def Recent (s : BufferPoolState F cap) (log : List (Fin cap)) : Prop :=
  ∃ l, Order s l ∧ Ordered log l

theorem Recent.of_same (h : Recent s log) (hl : t.links = s.links) (hf : t.freeList = s.freeList) :
    Recent t log := by
  obtain ⟨l, ho, hr⟩ := h
  exact ⟨l, ho.of_same hl hf, hr⟩

theorem Recent.touch (h : Recent s log) (hf : f ∉ s.freeList) : Recent (s.touch f) (f :: log) := by
  obtain ⟨l, ho, hr⟩ := h
  exact ⟨_, ho.touch ((ho.mem_iff f).mpr hf), hr.use f⟩

section Methods

variable [PageStore F]

theorem flushFrameIfDirty_recent (h : Recent s log) :
    wp (flushFrameIfDirty f) (fun _ t => Recent t log) (fun _ t => Recent t log) s := by
  refine wp_mono (flushFrameIfDirty_frame f s) ?_ ?_
  · rintro _ _ ⟨files, rfl⟩
    exact h.of_same (links_modifyFrame rfl rfl) rfl
  · rintro _ _ ⟨files, rfl⟩
    exact h.of_same rfl rfl

/-- The frame is at the head after it was acquired. -/
theorem acquireFrame_head (ho : Order s l) :
    wp acquireFrame (fun f t => Order t (f :: l.erase f)) (fun _ t => Order t l) s := by
  refine acquireFrame_spec ho (fun f rest hfl => ?_) (fun _ _ => ho) fun hfl f hlast => ?_
  · have hf : f ∉ l := fun hm => (ho.mem_iff f).mp hm (by simp [hfl])
    rw [List.erase_of_not_mem hf]
    exact ho.pop hfl
  · refine wp_mono (flushFrameIfDirty_frame f s) ?_ ?_
    · rintro _ _ ⟨files, rfl⟩
      have hot := ho.of_same (t := (modifyFrame f (fun frame => { frame with dirty := false })
        { s with files := files }).forget f)
          (by rw [forget_links, links_modifyFrame rfl rfl]; rfl) rfl
      have htouch := hot.touch ((ho.mem_iff f).mpr (by simp [hfl]))
      rwa [touch_of_links hot.links hot.nodup] at htouch
    · rintro _ _ ⟨files, rfl⟩
      exact ho.of_same rfl rfl

end Methods

/-! ## The frame that is acquired -/

/-- The pages that stay cached when the frame is taken: all but its own, and all if a frame was
free. -/
def Spares (s t : BufferPoolState F cap) (f : Fin cap) : Prop :=
  ∀ key x, s.pageTable key = some x → x ≠ f ∨ s.freeList ≠ [] → t.pageTable key = some x

theorem flushFrameIfDirty_error [PageStore F] (f : Fin cap) (s : BufferPoolState F cap) :
    wp (flushFrameIfDirty f) (fun _ _ => True) (fun e _ => e ≠ .error .noFrameAvailable) s := by
  unfold flushFrameIfDirty
  simp only [wp_bind, wp_get, wp_ite, wp_pure]
  split
  next => trivial
  next =>
    cases (s.frames f).key with
    | none => simp
    | some key =>
        simp only [wp_bind]
        cases hfile : s.files key.fileId with
        | none => exact (wp_withFile_unknown hfile).mpr (by simp)
        | some file =>
            rw [wp_withFile hfile]
            exact wp_mono (wp_true _ _) (fun _ _ _ => trivial) fun _ _ _ => by simp

section Acquire

variable [LawfulPageStore F]

theorem forget_spares (h : Table s) (hfl : s.freeList = []) : Spares s (s.forget f) f := by
  intro key x hx hne
  have hxf : x ≠ f := hne.resolve_right fun h => h hfl
  simp only [BufferPoolState.forget]
  cases hk : (s.frames f).key with
  | none => exact hx
  | some key' =>
      have hkey : key ≠ key' := by
        rintro rfl
        exact hxf (Option.some.inj (hx.symm.trans ((h.mem_iff key f).mpr hk)))
      show update s.pageTable key' none key = some x
      rw [update_of_ne hkey]
      exact hx

theorem acquireFrame_spares (h : Inv s guards) :
    wp acquireFrame (fun f t => Spares s t f) (fun _ t => t.pageTable = s.pageTable) s := by
  obtain ⟨l, ho⟩ := h.order
  refine acquireFrame_spec ho (fun f rest hfl => fun key x hx _ => hx) (fun _ _ => rfl)
    fun hfl f hlast => ?_
  refine wp_mono (wp_and (flushFrameIfDirty_inv h) (flushFrameIfDirty_frame f s)) ?_ ?_
  · rintro _ t ⟨⟨ht, files, rfl⟩, -⟩
    exact forget_spares ht.table hfl
  · rintro _ _ ⟨-, files, rfl⟩
    rfl

/-- Without a free frame the last unpinned one is acquired, if there is one. -/
theorem acquireFrame_last (h : Inv s guards) (ho : Order s l) :
    wp acquireFrame (fun f _ => (s.freeList = [] → LastUnpinned s l f) ∧ ∃ x,
        (s.frames x).pinCount = 0)
      (fun e _ => e = .error .noFrameAvailable ↔ ∀ x, (s.frames x).pinCount ≠ 0) s := by
  refine acquireFrame_spec ho (fun f rest hfl => ⟨fun hnil => ?_, f, ?_⟩)
    (fun _ hall => ⟨fun _ => hall, fun _ => rfl⟩)
    fun hfl f hlast => ?_
  · rw [hfl] at hnil
    cases hnil
  · have hmem : f ∈ s.freeList := hfl ▸ List.mem_cons_self
    exact (h.table.idle f (h.table.free f hmem)).1
  · refine wp_mono (flushFrameIfDirty_error f s) (fun _ _ _ => ⟨fun _ => hlast, f, hlast.unpinned⟩)
      fun e _ he => ?_
    exact ⟨fun heq => absurd heq he, fun hall => absurd hlast.unpinned (hall f)⟩

end Acquire

/-- The page of a dirty frame is on the disk. -/
def OnDisk [DurablePageStore F] (s t : BufferPoolState F cap) (f : Fin cap) : Prop :=
  (s.frames f).dirty = true → ∀ key, (s.frames f).key = some key →
    ∃ file, t.files key.fileId = some file ∧
      DurablePageStore.OnDisk file key.pageId (s.frames f).data

theorem flushFrameIfDirty_onDisk [DurablePageStore F] (h : Table s) :
    wp (flushFrameIfDirty f) (fun _ t => OnDisk s t f) (fun _ _ => True) s := by
  refine wp_flushFrameIfDirty (fun hclean hd => ?_) fun hd => ?_
  · rw [hclean] at hd
    cases hd
  · cases hk : (s.frames f).key with
    | none =>
        rw [(h.idle f hk).2] at hd
        cases hd
    | some key =>
        obtain ⟨file, hfile, -⟩ := h.registered f key hk
        refine ⟨key, file, rfl, hfile, ?_⟩
        refine wp_mono (DurablePageStore.writeBack_law file key.pageId _ (h.valid _ _ hfile)) ?_
          fun _ _ _ => trivial
        intro _ file' hstored _ key' hk'
        obtain rfl := Option.some.inj (hk.symm.trans hk')
        exact ⟨file', update_self .., hstored⟩

theorem acquireFrame_onDisk [DurablePageStore F] (h : Inv s guards) :
    wp acquireFrame (fun f t => OnDisk s t f) (fun _ _ => True) s := by
  obtain ⟨l, ho⟩ := h.order
  refine acquireFrame_spec ho (fun f rest hfl hd => ?_) (fun _ _ => trivial) fun hfl f hlast => ?_
  · have hmem : f ∈ s.freeList := hfl ▸ List.mem_cons_self
    rw [(h.table.idle f (h.table.free f hmem)).2] at hd
    cases hd
  · exact flushFrameIfDirty_onDisk h.table

/-! ## Requests for uncached pages -/

section Request

/-- The three requests when they miss: a frame is acquired, the page is fetched and put into it. -/
def request [PageStore F] (source : PoolM F cap (BufferKey × PageData)) (dirty : Bool) :
    PoolM F cap (Guard cap) := do
  let f ← acquireFrame
  let (key, data) ← source
  installFrame f key data dirty
  return ⟨f, key, dirty⟩

/-- The method works on the files alone. -/
def OnlyFiles {α : Type} (m : PoolM F cap α) : Prop :=
  ∀ s, wp m (fun _ t => ∃ files, t = { s with files })
    (fun e t => (e ≠ .error .noFrameAvailable ∧ e ≠ .diverge) ∧ ∃ files, t = { s with files }) s

theorem withFile_onlyFiles {α : Type} (fileId : Nat) (m : EStateM PageStoreError F α) :
    OnlyFiles (withFile fileId m : PoolM F cap α) := by
  intro s
  cases hfile : s.files fileId with
  | none => exact (wp_withFile_unknown hfile).mpr ⟨by simp, s.files, rfl⟩
  | some file =>
      rw [wp_withFile hfile]
      exact wp_mono (wp_true _ _) (fun _ _ _ => ⟨_, rfl⟩) fun _ _ _ => ⟨by simp, _, rfl⟩

theorem OnlyFiles.map {α β : Type} {m : PoolM F cap α} (h : OnlyFiles m) (g : α → β) :
    OnlyFiles (do let a ← m; return g a) := by
  intro s
  simp only [wp_bind, wp_pure]
  exact h s

theorem installFrame_outcome [PageStore F] (f : Fin cap) (key : BufferKey) (data : PageData)
    (dirty : Bool) (s : BufferPoolState F cap) :
    wp (installFrame f key data dirty)
      (fun _ t => s.pageTable key = none ∧ t = (s.place f key data dirty).touch f)
      (fun e t => (e ≠ .error .noFrameAvailable ∧ e ≠ .diverge) ∧ t = s) s := by
  cases hk : s.pageTable key with
  | none => exact (wp_installFrame hk).mpr ⟨rfl, rfl⟩
  | some x =>
      unfold installFrame
      simp [hk]

/-- How such a request ends: as `acquire_frame` does, or with a frame at the head of the list. -/
theorem request_outcome [LawfulPageStore F] (h : Inv s guards) (ho : Order s l)
    {source : PoolM F cap (BufferKey × PageData)} (hsource : OnlyFiles source) (dirty : Bool) :
    wp (request source dirty)
      (fun g t => (∃ u, acquireFrame s = .ok g.frameId u) ∧
        Order t (g.frameId :: l.erase g.frameId) ∧ Spares s t g.frameId)
      (fun e t => (∃ f u, acquireFrame s = .ok f u ∧ (e ≠ .error .noFrameAvailable ∧ e ≠ .diverge) ∧
          Order t (f :: l.erase f) ∧ Spares s t f) ∨
        acquireFrame s = .error e t ∧ Order t l ∧ t.pageTable = s.pageTable) s := by
  unfold request
  rw [wp_bind]
  refine wp_mono (wp_run (wp_and (acquireFrame_head ho) (acquireFrame_spares h))) ?_ ?_
  · rintro f t ⟨hf, hot, hspares⟩
    rw [wp_bind]
    refine wp_mono (hsource t) ?_ ?_
    · rintro ⟨key, data⟩ _ ⟨files, rfl⟩
      rw [wp_bind]
      refine wp_mono (installFrame_outcome f key data dirty _) ?_ ?_
      · rintro _ _ ⟨hnew, rfl⟩
        rw [wp_pure]
        have hplaced : Order (place f key data dirty { t with files }) (f :: l.erase f) :=
          hot.of_same (place_links ..) rfl
        have htouch := hplaced.touch List.mem_cons_self
        rw [List.erase_cons_head] at htouch
        refine ⟨⟨t, hf⟩, htouch, fun key' x hx hne => ?_⟩
        have hkept := hspares key' x hx hne
        have hkey : key' ≠ key := by
          rintro rfl
          rw [hnew] at hkept
          cases hkept
        rw [touch_eq]
        show update t.pageTable key (some f) key' = some x
        rw [update_of_ne hkey]
        exact hkept
      · rintro e _ ⟨he, rfl⟩
        exact Or.inl ⟨f, t, hf, he, hot.of_same rfl rfl, hspares⟩
    · rintro e _ ⟨he, files, rfl⟩
      exact Or.inl ⟨f, t, hf, he, hot.of_same rfl rfl, hspares⟩
  · rintro e t ⟨he, hot, htable⟩
    exact Or.inr ⟨he, hot, htable⟩

theorem getPage_miss [PageStore F] {fileId pageId : Nat} (h : s.pageTable ⟨fileId, pageId⟩ = none) :
    getPage fileId pageId s =
      request (do
        let data ← readPageData ⟨fileId, pageId⟩
        return (⟨fileId, pageId⟩, data)) false s := by
  rw [getPage, get_bind]
  simp only [h, loadFrame, request, bind_assoc, pure_bind]

theorem getPageMut_miss [PageStore F] {fileId pageId : Nat}
    (h : s.pageTable ⟨fileId, pageId⟩ = none) :
    getPageMut fileId pageId s =
      request (do
        let data ← readPageData ⟨fileId, pageId⟩
        return (⟨fileId, pageId⟩, data)) true s := by
  rw [getPageMut, get_bind]
  simp only [h, loadFrame, request, bind_assoc, pure_bind]

theorem allocatePage_eq [PageStore F] (fileId : Nat) :
    (allocatePage fileId : PoolM F cap (Guard cap)) =
      request (do let pageId ← allocatePageId fileId; return (⟨fileId, pageId⟩, Block.zero _))
        true := by
  simp only [allocatePage, request, bind_assoc, pure_bind]

theorem getPage_hit [PageStore F] {fileId pageId : Nat}
    (h : s.pageTable ⟨fileId, pageId⟩ = some f) :
    getPage fileId pageId s =
      (do pinFrame f; return (⟨f, ⟨fileId, pageId⟩, false⟩ : Guard cap)) s := by
  rw [getPage, get_bind]
  simp only [h]

theorem getPageMut_hit [PageStore F] {fileId pageId : Nat}
    (h : s.pageTable ⟨fileId, pageId⟩ = some f) :
    getPageMut fileId pageId s = (do
      pinFrame f
      modify (modifyFrame f fun frame => { frame with dirty := true })
      return (⟨f, ⟨fileId, pageId⟩, true⟩ : Guard cap)) s := by
  rw [getPageMut, get_bind]
  simp only [h]

theorem acquired_of_ok [PageStore F] {u : BufferPoolState F cap} (h : acquireFrame s = .ok f u) :
    acquired s = [f] := by
  rw [acquired, h]
  rfl

theorem acquired_of_error [PageStore F] {e : Stop BufferPoolError} {u : BufferPoolState F cap}
    (h : acquireFrame s = .error e u) : acquired s = [] := by
  rw [acquired, h]
  rfl

theorem request_recent [LawfulPageStore F] (h : Inv s guards) (hr : Recent s log)
    {source : PoolM F cap (BufferKey × PageData)} (hsource : OnlyFiles source) (dirty : Bool) :
    wp (request source dirty) (fun _ t => Recent t (acquired s ++ log))
      (fun _ t => Recent t (acquired s ++ log)) s := by
  obtain ⟨l, ho, hl⟩ := hr
  refine wp_mono (request_outcome h ho hsource dirty) ?_ ?_
  · rintro g t ⟨⟨u, hu⟩, hot, -⟩
    rw [acquired_of_ok hu]
    exact ⟨_, hot, hl.use _⟩
  · rintro e t (⟨f, u, hu, -, hot, -⟩ | ⟨hu, hot, -⟩)
    · rw [acquired_of_ok hu]
      exact ⟨_, hot, hl.use _⟩
    · rw [acquired_of_error hu]
      exact ⟨l, hot, hl⟩

end Request

/-! ## The other methods -/

theorem pinFrame_recent (h : Recent s log) (hf : f ∉ s.freeList) :
    wp (pinFrame f) (fun _ t => Recent t (f :: log)) (fun e _ => e = .panic) s := by
  unfold pinFrame
  simp only [wp_bind, wp_get]
  cases checked 32 ((s.frames f).pinCount + 1) with
  | none => exact rfl
  | some pinCount =>
      simp only [wp_bind, wp_modify]
      exact (h.of_same (links_modifyFrame rfl rfl) rfl).touch hf

theorem unpinFrame_recent (h : Recent s log) (hf : f ∉ s.freeList)
    (hpos : (s.frames f).pinCount ≠ 0) :
    Recent (s.unpinFrame f) ((if (s.frames f).pinCount = 1 then [f] else []) ++ log) := by
  have hcount :
      ((s.modifyFrame f fun frame => { frame with pinCount := frame.pinCount - 1 }).frames
      f).pinCount = (s.frames f).pinCount - 1 := by
    rw [modifyFrame_frames, if_pos rfl]
  have hsame : Recent (s.modifyFrame f fun frame => { frame with pinCount := frame.pinCount - 1 })
      log :=
    h.of_same (links_modifyFrame rfl rfl) rfl
  unfold unpinFrame
  rw [if_neg hpos]
  by_cases hone : (s.frames f).pinCount = 1
  · rw [if_pos hone, if_pos (by rw [hcount]; omega)]
    exact hsame.touch hf
  · rw [if_neg hone, if_neg (by rw [hcount]; omega)]
    exact hsame

theorem withFile_recent {α : Type} {m : PoolM F cap α} (hm : OnlyFiles m) (h : Recent s log) :
    wp m (fun _ t => Recent t log) (fun _ t => Recent t log) s := by
  refine wp_mono (hm s) ?_ ?_
  · rintro _ _ ⟨files, rfl⟩
    exact h.of_same rfl rfl
  · rintro _ _ ⟨-, files, rfl⟩
    exact h.of_same rfl rfl

theorem registerFile_recent (h : Recent s log) (file : F) :
    wp (registerFile file) (fun _ t => Recent t log) (fun _ t => Recent t log) s := by
  unfold registerFile
  simp only [wp_bind, wp_get]
  cases checked 32 (s.nextFileId + 1) with
  | none => exact h
  | some nextFileId => exact h.of_same rfl rfl

/-- An unpinned frame goes to the free list. -/
theorem Recent.evict (h : Recent s log) (hf : f ∉ s.freeList) :
    Recent { (s.forget f).unlink f with freeList := f :: ((s.forget f).unlink f).freeList }
      log := by
  obtain ⟨l, ho, hl⟩ := h
  have hof : Order (s.forget f) l := ho.of_same (forget_links f s) rfl
  exact ⟨_, hof.evict ((ho.mem_iff f).mpr hf), hl.erase f⟩

section Files

variable [PageStore F]

theorem forceFile_recent (h : Recent s log) (fileId : Nat) (pageId : Option Nat) :
    wp (forceFile fileId pageId) (fun _ t => Recent t log) (fun _ t => Recent t log) s := by
  unfold forceFile
  simp only [wp_bind, wp_get, wp_ite, wp_throw]
  split
  next => exact h
  next =>
    refine wp_mono (wp_forM (R := fun _ t => Recent t log)
        (fun f _ t ht => flushFrameIfDirty_recent ht) h) ?_
      fun _ _ h => h
    exact fun _ t ht => withFile_recent (withFile_onlyFiles _ _) ht

theorem evictAll_recent (h : Recent s log) {l' : List (Fin cap)} (hn : l'.Nodup)
    (h0 : ∀ f ∈ l', (s.frames f).pinCount = 0 ∧ f ∉ s.freeList) :
    wp (l'.forM fun f => do flushFrameIfDirty f; evictFrame f) (fun _ t => Recent t log)
      (fun _ t => Recent t log) s := by
  induction l' generalizing s with
  | nil => exact h
  | cons f l' ih =>
      obtain ⟨hf, hn⟩ := List.nodup_cons.mp hn
      obtain ⟨⟨hpin, hfree⟩, hrest⟩ := List.forall_mem_cons.mp h0
      show wp ((do flushFrameIfDirty f; evictFrame f) >>= fun _ =>
        l'.forM fun f => do flushFrameIfDirty f; evictFrame f) _ _ _
      simp only [wp_bind]
      refine wp_mono (wp_and (flushFrameIfDirty_recent h) (flushFrameIfDirty_frame f s)) ?_
        fun _ _ h => h.1
      rintro _ _ ⟨ht, files, rfl⟩
      rw [wp_evictFrame (by rw [modifyFrame_frames, if_pos rfl]; exact hpin)]
      refine ih (ht.evict hfree) hn fun x hx => ?_
      have hxf : x ≠ f := by
        rintro rfl
        exact hf hx
      obtain ⟨hxpin, hxfree⟩ := hrest x hx
      rw [unlink_eq]
      constructor
      · simpa [withLinks, BufferPoolState.forget, hxf, modifyFrame_frames] using hxpin
      · exact List.not_mem_cons_of_ne_of_not_mem hxf hxfree

end Files

theorem flushFile_recent [LawfulPageStore F] (hi : Inv s guards) (h : Recent s log) (fileId : Nat) :
    wp (flushFile fileId) (fun _ t => Recent t log) (fun _ t => Recent t log) s := by
  unfold flushFile
  simp only [wp_bind, wp_get, wp_ite, wp_throw]
  split
  next => exact h
  next =>
    split
    next => exact h
    next hpin =>
      refine wp_mono (evictAll_recent h (matching_nodup _ _ _) (unpinned_of_matching hi hpin)) ?_
        fun _ _ h => h
      exact fun _ t ht => withFile_recent (withFile_onlyFiles _ _) ht

theorem removeFile_recent [LawfulPageStore F] (hi : Inv s guards) (h : Recent s log)
    (fileId : Nat) :
    wp (removeFile fileId) (fun _ t => Recent t log) (fun _ t => Recent t log) s := by
  unfold removeFile
  simp only [wp_bind]
  refine wp_mono (flushFile_recent hi h fileId) (fun _ t ht => ?_) fun _ _ h => h
  simp only [wp_get]
  cases t.files fileId with
  | none => exact ht
  | some file => exact ht.of_same rfl rfl

/-! ## Runs -/

section Runs

variable [LawfulPageStore F] {w : World F cap} {h : List (Event F cap × Reply F cap)}
  {P : World F cap → Event F cap → Prop}

omit [LawfulPageStore F] in
theorem call_congr {α : Type} {m m' : PoolM F cap α} (h : m w.pool = m' w.pool)
    (k : α → World F cap → World F cap × Reply F cap) : w.call m k = w.call m' k := by
  simp only [World.call, h]

/-- A request that misses is the one method. -/
theorem step_of_miss {e : Event F cap} (hm : Misses w.pool e) : ∃ source dirty,
    w.step e = w.call (request source dirty) giveGuard ∧ OnlyFiles source ∧
      w.touched e = acquired w.pool := by
  cases e with
  | getPage fileId pageId =>
      have hnone : w.pool.pageTable ⟨fileId, pageId⟩ = none := hm
      refine ⟨_, _, call_congr (getPage_miss hm) giveGuard, (withFile_onlyFiles _ _).map _, ?_⟩
      simp only [World.touched, requested, hnone]
  | getPageMut fileId pageId =>
      have hnone : w.pool.pageTable ⟨fileId, pageId⟩ = none := hm
      refine ⟨_, _, call_congr (getPageMut_miss hm) giveGuard, (withFile_onlyFiles _ _).map _, ?_⟩
      simp only [World.touched, requested, hnone]
  | allocatePage fileId =>
      exact ⟨_, _, call_congr (congrFun (allocatePage_eq fileId) w.pool) giveGuard,
        (withFile_onlyFiles _ _).map _, rfl⟩
  | _ => exact hm.elim

theorem Inv.not_free {key : BufferKey} (h : Inv s guards) (hk : s.pageTable key = some f) :
    f ∉ s.freeList := by
  intro hm
  have hkey := (h.table.mem_iff key f).mp hk
  rw [h.table.free f hm] at hkey
  cases hkey

/-- Unless the lock was poisoned, the frames are in the order of the touches after the step. -/
def KeptRecent (t : World F cap × Reply F cap) (log : List (Fin cap)) : Prop :=
  t.1.poisoned = false → Recent t.1.pool log

omit [LawfulPageStore F] in
theorem call_recent {α : Type} {m : PoolM F cap α} {k : α → World F cap → World F cap × Reply F cap}
    (hp : w.poisoned = false)
    (hm : wp m (fun _ t => Recent t log) (fun e t => e = .panic ∨ Recent t log) w.pool)
    (hk : ∀ a pool, (k a { w with pool }).1.pool = pool) : KeptRecent (w.call m k) log := by
  refine call_cases (R := fun t => KeptRecent t log) hp hm (fun a pool ht _ => ?_)
    fun why pool ht hpoisoned => ?_
  · rw [hk]
    exact ht
  · exact ht.resolve_left (by simpa using hpoisoned)

theorem step_recent (hp : w.poisoned = false) (hi : Inv w.pool w.guards) (hr : Recent w.pool log)
    (e : Event F cap) (he : w.Possible e) : KeptRecent (w.step e) (w.touched e ++ log) := by
  by_cases hm : Misses w.pool e
  · obtain ⟨source, dirty, hstep, hsource, htouched⟩ := step_of_miss hm
    rw [hstep, htouched]
    exact call_recent hp (wp_mono (request_recent hi hr hsource dirty) (fun _ _ h => h)
      fun _ _ => Or.inr) fun _ _ => rfl
  · cases e with
    | registerFile file =>
        exact call_recent hp (wp_mono (registerFile_recent hr file) (fun _ _ h => h)
          fun _ _ => Or.inr) fun _ _ => rfl
    | getPage i p =>
        obtain ⟨f, hf⟩ := Option.ne_none_iff_exists'.mp hm
        have hstep : w.step (.getPage i p) =
            w.call (do pinFrame f; return ⟨f, ⟨i, p⟩, false⟩) giveGuard :=
          call_congr (getPage_hit hf) giveGuard
        have htouched : w.touched (.getPage i p) = [f] := by
          simp only [World.touched, requested, hf]
        rw [hstep, htouched]
        refine call_recent hp ?_ fun _ _ => rfl
        simp only [wp_bind, wp_pure]
        exact wp_mono (pinFrame_recent hr (hi.not_free hf)) (fun _ _ h => h) fun _ _ => Or.inl
    | getPageMut i p =>
        obtain ⟨f, hf⟩ := Option.ne_none_iff_exists'.mp hm
        have hstep : w.step (.getPageMut i p) = w.call (do
            pinFrame f
            modify (modifyFrame f fun frame => { frame with dirty := true })
            return ⟨f, ⟨i, p⟩, true⟩) giveGuard := call_congr (getPageMut_hit hf) giveGuard
        have htouched : w.touched (.getPageMut i p) = [f] := by
          simp only [World.touched, requested, hf]
        rw [hstep, htouched]
        refine call_recent hp ?_ fun _ _ => rfl
        simp only [wp_bind, wp_modify, wp_pure]
        refine wp_mono (pinFrame_recent hr (hi.not_free hf)) (fun _ t ht => ?_) fun _ _ => Or.inl
        exact ht.of_same (links_modifyFrame rfl rfl) rfl
    | allocatePage i => exact absurd trivial hm
    | forceFile i p =>
        exact call_recent hp (wp_mono (forceFile_recent hr i p) (fun _ _ h => h) fun _ _ => Or.inr)
          fun _ _ => rfl
    | flushFile i =>
        exact call_recent hp (wp_mono (flushFile_recent hi hr i) (fun _ _ h => h) fun _ _ => Or.inr)
          fun _ _ => rfl
    | removeFile i =>
        exact call_recent hp (wp_mono (removeFile_recent hi hr i) (fun _ _ h => h)
          fun _ _ => Or.inr) fun _ _ => rfl
    | write g d => exact fun _ => hr.of_same (links_modifyFrame rfl rfl) rfl
    | drop g =>
        have hkey := hi.pinned.key g he
        have hfree : g.frameId ∉ w.pool.freeList := by
          intro hf
          rw [hi.table.free _ hf] at hkey
          cases hkey
        have hpos : (w.pool.frames g.frameId).pinCount ≠ 0 :=
          fun h0 => hi.pinned.ne_of_pinCount h0 he rfl
        have hu := unpinFrame_recent hr hfree hpos
        rw [hi.pinned.count] at hu
        intro _
        simp only [World.step, hp, Bool.false_eq_true, if_false, World.touched]
        exact hu

theorem Run.replay (hr : World.Run P h w) : World.replay (h.map Prod.fst) = w := by
  induction hr with
  | new => rfl
  | step e _ _ _ ih => rw [List.map_cons, World.replay, ih]

/-- After a run the frames are in the order of its touches. -/
theorem Run.recent (hr : World.Run P h w) (hp : w.poisoned = false) :
    Recent w.pool (touchLog (h.map Prod.fst)) := by
  induction hr with
  | new => exact ⟨[], order_new, .nil _⟩
  | @step h w e hr he _ ih =>
      cases hw : w.poisoned with
      | false =>
          rw [List.map_cons, touchLog, Run.replay hr]
          exact step_recent hw (Run.inv hr hw) (ih hw) e he hp
      | true =>
          rw [step_poisoned hw e] at hp
          cases hp

end Runs

end Redbase.Buffer
