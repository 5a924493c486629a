import Redbase.Buffer.Lemmas.Structure

/-!
# The methods of the pool under its invariant
-/

namespace Redbase.Buffer

open Prog Bytes Page Function Linked BufferPoolState

variable {F : Type} [LawfulPageStore F] {cap : Nat} {s t : BufferPoolState F cap} {f : Fin cap}
  {guards : List (Guard cap)}

theorem Inv.setFile (h : Inv s guards) {fileId : Nat} {file file' : F}
    (hf : s.files fileId = some file)
    (hk : LawfulPageStore.Valid file' ∧
      ∀ p, LawfulPageStore.InUse file p → LawfulPageStore.InUse file' p) :
    Inv { s with files := update s.files fileId (some file') } guards := by
  obtain ⟨l, hl⟩ := h.order
  exact ⟨⟨l, hl.of_same rfl rfl⟩, h.table.setFile hf hk,
    h.pinned.of_same (fun _ => rfl) fun _ => rfl⟩

/-- Marking a frame clean, or a frame with a page dirty. -/
theorem Inv.setDirty (h : Inv s guards) {dirty : Bool}
    (hd : dirty = true → (s.frames f).key ≠ none) :
    Inv (s.modifyFrame f fun frame => { frame with dirty }) guards := by
  obtain ⟨l, hl⟩ := h.order
  have hkey : ∀ x, ((s.modifyFrame f fun frame => { frame with dirty }).frames x).key =
      (s.frames x).key := by
    intro x
    rw [modifyFrame_frames]
    split
    next he => rw [he]
    next => rfl
  refine ⟨⟨l, hl.of_same (links_modifyFrame rfl rfl) rfl⟩,
    h.table.of_same hkey rfl rfl rfl rfl fun x hx => ?_, h.pinned.of_same (fun x => ?_) hkey⟩
  · rw [modifyFrame_frames]
    split
    next he =>
      subst he
      refine ⟨(h.table.idle x hx).1, ?_⟩
      cases dirty with
      | false => rfl
      | true => exact absurd hx (hd rfl)
    next => exact h.table.idle x hx
  · rw [modifyFrame_frames]
    split
    next he => rw [he]
    next => rfl

/-- A write through a guard. -/
theorem Inv.setData (h : Inv s guards) {data : PageData} :
    Inv (s.modifyFrame f fun frame => { frame with data }) guards := by
  obtain ⟨l, hl⟩ := h.order
  have hsame : ∀ x, ((s.modifyFrame f fun frame => { frame with data }).frames x).key =
        (s.frames x).key ∧
      ((s.modifyFrame f fun frame => { frame with data }).frames x).pinCount =
        (s.frames x).pinCount ∧
      ((s.modifyFrame f fun frame => { frame with data }).frames x).dirty = (s.frames x).dirty := by
    intro x
    rw [modifyFrame_frames]
    split
    next he => exact ⟨by rw [he], by rw [he], by rw [he]⟩
    next => exact ⟨rfl, rfl, rfl⟩
  exact ⟨⟨l, hl.of_same (links_modifyFrame rfl rfl) rfl⟩,
    h.table.of_same (fun x => (hsame x).1) rfl rfl rfl rfl fun x hx => by
      rw [(hsame x).2.1, (hsame x).2.2]
      exact h.table.idle x hx,
    h.pinned.of_same (fun x => (hsame x).2.1) fun x => (hsame x).1⟩

theorem Inv.touch (h : Inv s guards) (hf : f ∉ s.freeList) : Inv (s.touch f) guards := by
  obtain ⟨l, hl⟩ := h.order
  have ht := touch_eq s f
  exact ⟨⟨_, hl.touch ((hl.mem_iff f).mpr hf)⟩,
    h.table.of_same (fun _ => by rw [ht]; rfl) (by rw [ht]; rfl) (by rw [ht]; rfl) (by rw [ht]; rfl)
      (by rw [ht]; rfl) fun x hx => by rw [ht]; exact h.table.idle x hx,
    h.pinned.of_same (fun _ => by rw [ht]; rfl) fun _ => by rw [ht]; rfl⟩

/-- A write-back may fail, but moves nothing. -/
theorem flushFrameIfDirty_inv (h : Inv s guards) :
    wp (flushFrameIfDirty f)
      (fun _ t => Inv t guards ∧ ∃ files,
        t = modifyFrame f (fun frame => { frame with dirty := false }) { s with files })
      (fun e t => Inv t guards ∧ Expected e) s := by
  refine wp_mono (wp_and ?_ (flushFrameIfDirty_frame f s)) (fun _ _ h => h) fun _ _ h => h.1
  refine wp_flushFrameIfDirty (fun _ => h) fun hd => ?_
  cases hk : (s.frames f).key with
  | none => simp [(h.table.idle f hk).2] at hd
  | some key =>
      obtain ⟨file, hfile, _⟩ := h.table.registered f key hk
      refine ⟨key, file, rfl, hfile, ?_⟩
      rw [wp_bind]
      refine wp_mono (LawfulPageStore.write_law file key.pageId _ (h.table.valid _ _ hfile)) ?_ ?_
      · intro _ file₁ h₁
        refine wp_mono (LawfulPageStore.flush_law file₁ h₁.1) ?_ ?_
        · intro _ file₂ h₂
          exact (h.setFile hfile ⟨h₂.1, fun p hp => h₂.2 p (h₁.2 p hp)⟩).setDirty (by simp)
        · intro _ file₂ h₂
          exact ⟨h.setFile hfile ⟨h₂.1, fun p hp => h₂.2 p (h₁.2 p hp)⟩, trivial⟩
      · intro _ file₁ h₁
        exact ⟨h.setFile hfile h₁, trivial⟩

/-- A frame without a page, out of the free list, and clean by the invariant. -/
theorem acquireFrame_inv (h : Inv s guards) :
    wp acquireFrame
      (fun f t => Inv t guards ∧ f ∉ t.freeList ∧ (t.frames f).key = none ∧
        ∀ key, s.pageTable key = none → t.pageTable key = none)
      (fun e t => Inv t guards ∧ Expected e) s := by
  obtain ⟨l, hl⟩ := h.order
  refine acquireFrame_spec hl (fun f rest hfl => ?_) (fun _ _ => ⟨h, trivial⟩) fun hfl f hlast => ?_
  · have hn := List.nodup_cons.mp (hfl ▸ hl.free_nodup)
    refine ⟨⟨⟨_, hl.pop hfl⟩, ?_, h.pinned.of_same (fun _ => rfl) fun _ => rfl⟩, hn.1,
      h.table.free f (by simp [hfl]), fun _ hk => hk⟩
    exact {
      mem_iff := h.table.mem_iff
      free := fun x hx => h.table.free x (by rw [hfl]; exact List.mem_cons_of_mem _ hx)
      idle := h.table.idle
      registered := h.table.registered
      valid := h.table.valid
      fresh := h.table.fresh }
  · refine wp_mono (flushFrameIfDirty_inv h) ?_ fun _ _ h => h
    rintro _ t ⟨ht, files, he⟩
    have hlt : Order t l := hl.of_same (by rw [he, links_modifyFrame rfl rfl]; rfl)
      (by rw [he]; rfl)
    have h0t : (t.frames f).pinCount = 0 := by
      rw [he, modifyFrame_frames, if_pos rfl]
      exact hlast.unpinned
    have hfree : t.freeList = [] := by rw [he]; exact hfl
    have hf : f ∈ l := (hl.mem_iff f).mpr (by simp [hfl])
    have htouch : (t.forget f).touch f = (t.forget f).withLinks (Links.ofList (f :: l.erase f)) :=
      touch_of_links (by rw [forget_links]; exact hlt.links) hl.nodup
    have hinv : Inv (t.forget f) guards :=
      ⟨⟨l, hlt.of_same (forget_links f t) rfl⟩, ht.table.forget h0t, ht.pinned.forget h0t⟩
    rw [← htouch]
    refine ⟨hinv.touch (by simp [BufferPoolState.forget, hfree]), ?_, ?_, fun key hk => ?_⟩
    · rw [htouch]
      simp [withLinks, BufferPoolState.forget, hfree]
    · rw [htouch]
      simp [withLinks, BufferPoolState.forget]
    · rw [htouch]
      exact forget_pageTable (by rw [he]; exact hk)

/-! ## Pages -/

/-- A page is put into an acquired frame, for a new guard. -/
theorem Inv.place (h : Inv s guards) {key : BufferKey} {data : PageData} {dirty : Bool}
    {g : Guard cap} (hk : (s.frames f).key = none) (ht : s.pageTable key = none)
    (hf : f ∉ s.freeList)
    (hu : ∃ file, s.files key.fileId = some file ∧ LawfulPageStore.InUse file key.pageId)
    (hg : g.frameId = f ∧ g.key = key) :
    Inv ((s.place f key data dirty).touch f) (g :: guards) := by
  obtain ⟨l, hl⟩ := h.order
  obtain ⟨rfl, rfl⟩ := hg
  have h0 := (h.table.idle _ hk).1
  refine Inv.touch ⟨⟨l, hl.of_same (place_links _ _ _ _ _) rfl⟩, h.table.place hk ht hf hu, ?_⟩ hf
  refine h.pinned.push (fun x => ?_) (fun g' hg' => ?_) ?_
  · simp only [BufferPoolState.place, update_apply]
    split
    next hx => rw [hx, h0]
    next => rfl
  · simp only [BufferPoolState.place, update_of_ne (h.pinned.ne_of_pinCount h0 hg')]
  · simp [BufferPoolState.place]

theorem loadFrame_inv (h : Inv s guards) {key : BufferKey} {dirty : Bool}
    (hk : s.pageTable key = none) (writable : Bool) :
    wp (loadFrame key dirty) (fun f t => Inv t (⟨f, key, writable⟩ :: guards))
      (fun e t => Inv t guards ∧ Expected e) s := by
  unfold loadFrame
  simp only [wp_bind]
  refine wp_mono (acquireFrame_inv h) ?_ fun _ _ h => h
  rintro f t ⟨ht, hf, hkey, htab⟩
  unfold readPageData
  cases hfile : t.files key.fileId with
  | none =>
      rw [wp_withFile_unknown hfile]
      exact ⟨ht, trivial⟩
  | some file =>
      rw [wp_withFile hfile]
      refine wp_mono (LawfulPageStore.read_law file key.pageId (ht.table.valid _ _ hfile)) ?_ ?_
      · rintro data file' ⟨hkeep, hu⟩
        have ht' := ht.setFile hfile hkeep
        refine (wp_installFrame ?_).mpr ?_
        · exact htab key hk
        exact ht'.place hkey (htab key hk) hf ⟨file', by simp, hu⟩ ⟨rfl, rfl⟩
      · rintro _ file' hkeep
        exact ⟨ht.setFile hfile hkeep, trivial⟩

/-- A frame that caches a page is pinned once more. -/
theorem pinFrame_inv (h : Inv s guards) {key : BufferKey} (hk : s.pageTable key = some f)
    (writable : Bool) :
    wp (pinFrame f) (fun _ t => Inv t (⟨f, key, writable⟩ :: guards) ∧ (t.frames f).key = some key)
      (fun e t => Inv t guards ∧ Expected e) s := by
  obtain ⟨l, hl⟩ := h.order
  have hkey := (h.table.mem_iff key f).mp hk
  have hf : f ∉ s.freeList := fun hm => by simp [h.table.free f hm] at hkey
  unfold pinFrame
  simp only [wp_bind, wp_get]
  cases hc : checked 32 ((s.frames f).pinCount + 1) with
  | none => exact ⟨h, trivial⟩
  | some pinCount =>
    obtain rfl := checked_eq_some hc
    simp only [wp_bind, wp_modify]
    have hsame : ∀ x, ((s.modifyFrame f fun frame =>
        { frame with pinCount := (s.frames f).pinCount + 1 }).frames x).key = (s.frames x).key := by
      intro x
      rw [modifyFrame_frames]
      split
      next he => rw [he]
      next => rfl
    refine ⟨Inv.touch ⟨⟨l, hl.of_same (links_modifyFrame rfl rfl) rfl⟩,
      h.table.of_same hsame rfl rfl rfl rfl fun x hx => ?_, ?_⟩ hf, ?_⟩
    · rw [modifyFrame_frames, if_neg (by rintro rfl; simp [hx] at hkey)]
      exact h.table.idle x hx
    · refine h.pinned.push (fun x => ?_) (fun _ _ => hsame _) ((hsame f).trans hkey)
      rw [modifyFrame_frames]
      split
      next he => rw [he]
      next => rfl
    · rw [touch_eq]
      exact (hsame f).trans hkey

theorem getPage_inv (h : Inv s guards) (fileId pageId : Nat) :
    wp (getPage fileId pageId) (fun g t => Inv t (g :: guards))
      (fun e t => Inv t guards ∧ Expected e) s := by
  unfold getPage
  simp only [wp_bind, wp_get]
  cases hk : s.pageTable ⟨fileId, pageId⟩ with
  | none =>
      simp only [wp_bind, wp_pure]
      exact loadFrame_inv h hk false
  | some f =>
      simp only [wp_bind, wp_pure]
      exact wp_mono (pinFrame_inv h hk false) (fun _ _ ht => ht.1) fun _ _ h => h

theorem getPageMut_inv (h : Inv s guards) (fileId pageId : Nat) :
    wp (getPageMut fileId pageId) (fun g t => Inv t (g :: guards))
      (fun e t => Inv t guards ∧ Expected e) s := by
  unfold getPageMut
  simp only [wp_bind, wp_get]
  cases hk : s.pageTable ⟨fileId, pageId⟩ with
  | none =>
      simp only [wp_bind, wp_pure]
      exact loadFrame_inv h hk true
  | some f =>
      simp only [wp_bind, wp_pure, wp_modify]
      refine wp_mono (pinFrame_inv h hk true) (fun _ _ ht => ht.1.setDirty fun _ => ?_)
        fun _ _ h => h
      simp [ht.2]

/-- The page handed out is not cached: a cached page is in use. -/
theorem allocatePage_inv (h : Inv s guards) (fileId : Nat) :
    wp (allocatePage fileId) (fun g t => Inv t (g :: guards))
      (fun e t => Inv t guards ∧ Expected e) s := by
  unfold allocatePage
  simp only [wp_bind]
  refine wp_mono (acquireFrame_inv h) ?_ fun _ _ h => h
  rintro f t ⟨ht, hf, hkey, -⟩
  unfold allocatePageId
  cases hfile : t.files fileId with
  | none =>
      rw [wp_withFile_unknown hfile]
      exact ⟨ht, trivial⟩
  | some file =>
      rw [wp_withFile hfile]
      refine wp_mono (LawfulPageStore.allocate_law file (ht.table.valid _ _ hfile)) ?_ ?_
      · rintro p file' ⟨hkeep, hnew, hu⟩
        have ht' := ht.setFile hfile hkeep
        have htab : t.pageTable ⟨fileId, p⟩ = none := by
          cases hx : t.pageTable ⟨fileId, p⟩ with
          | none => rfl
          | some x =>
              obtain ⟨file₀, h₀, hu₀⟩ := ht.table.registered x _ ((ht.table.mem_iff _ x).mp hx)
              rw [hfile, Option.some.injEq] at h₀
              exact absurd (h₀ ▸ hu₀) hnew
        refine (wp_installFrame ?_).mpr ?_
        · exact htab
        exact ht'.place hkey htab hf ⟨file', by simp, hu⟩ ⟨rfl, rfl⟩
      · rintro _ file' hkeep
        exact ⟨ht.setFile hfile hkeep, trivial⟩

/-! ## Files -/

theorem registerFile_inv (h : Inv s guards) {file : F} (hv : LawfulPageStore.Valid file) :
    wp (registerFile file) (fun _ t => Inv t guards) (fun e t => Inv t guards ∧ Expected e) s := by
  obtain ⟨l, hl⟩ := h.order
  unfold registerFile
  simp only [wp_bind, wp_get]
  cases hc : checked 32 (s.nextFileId + 1) with
  | none => exact ⟨h, rfl⟩
  | some nextFileId =>
    obtain rfl := checked_eq_some hc
    simp only [wp_bind, wp_modify, wp_pure]
    refine ⟨⟨l, hl.of_same rfl rfl⟩, ?_, h.pinned.of_same (fun _ => rfl) fun _ => rfl⟩
    exact {
      mem_iff := h.table.mem_iff
      free := h.table.free
      idle := h.table.idle
      registered := fun x key hx => by
        obtain ⟨file₀, h₀, hu⟩ := h.table.registered x key hx
        have hne : key.fileId ≠ s.nextFileId := by
          intro he
          simp [he, h.table.fresh] at h₀
        exact ⟨file₀, by simpa [hne] using h₀, hu⟩
      valid := fun i file₀ hi => by
        rcases eq_or_ne i s.nextFileId with rfl | hne
        · simp only [update_self, Option.some.injEq] at hi
          exact hi ▸ hv
        · exact h.table.valid i file₀ (by simpa [hne] using hi)
      fresh := fun i hi => by
        have hne : i ≠ s.nextFileId := by rintro rfl; exact Nat.not_succ_le_self _ hi
        simpa [hne] using h.table.fresh i (Nat.le_of_succ_le hi) }

theorem flushRegistered_inv (h : Inv s guards) (fileId : Nat) :
    wp (withFile fileId PageStore.flush) (fun _ t => Inv t guards ∧ ∃ files, t = { s with files })
      (fun e t => Inv t guards ∧ Expected e) s := by
  cases hfile : s.files fileId with
  | none =>
      rw [wp_withFile_unknown hfile]
      exact ⟨h, trivial⟩
  | some file =>
      rw [wp_withFile hfile]
      refine wp_mono (LawfulPageStore.flush_law file (h.table.valid _ _ hfile)) ?_ ?_
      · exact fun _ file' hkeep => ⟨h.setFile hfile hkeep, _, rfl⟩
      · exact fun _ file' hkeep => ⟨h.setFile hfile hkeep, trivial⟩

theorem forceFile_inv (h : Inv s guards) (fileId : Nat) (pageId : Option Nat) :
    wp (forceFile fileId pageId) (fun _ t => Inv t guards)
      (fun e t => Inv t guards ∧ Expected e) s := by
  unfold forceFile
  simp only [wp_bind, wp_get, wp_ite, wp_throw]
  split
  next => exact ⟨h, trivial⟩
  next =>
    refine wp_mono (wp_forM (R := fun _ t => Inv t guards) (fun f _ t ht => ?_) h) ?_ fun _ _ h => h
    · exact wp_mono (flushFrameIfDirty_inv ht) (fun _ _ h => h.1) fun _ _ h => h
    · exact fun _ t ht => wp_mono (flushRegistered_inv ht fileId) (fun _ _ h => h.1) fun _ _ h => h

/-- An unpinned frame goes back to the free list. -/
theorem evictFrame_inv (h : Inv s guards) (h0 : (s.frames f).pinCount = 0) (hf : f ∉ s.freeList)
    {E : Stop BufferPoolError → BufferPoolState F cap → Prop} :
    wp (evictFrame f) (fun _ t => Inv t guards ∧ t.freeList = f :: s.freeList ∧
      ∀ x, (t.frames x).key = (if x = f then none else (s.frames x).key) ∧
        (t.frames x).pinCount = (s.frames x).pinCount) E s := by
  obtain ⟨l, hl⟩ := h.order
  have hl' : Order (s.forget f) l := hl.of_same (forget_links f s) rfl
  have he := hl'.evict ((hl.mem_iff f).mpr hf)
  rw [wp_evictFrame h0]
  have hkey : ∀ x, (((s.forget f).unlink f).frames x).key = if x = f then none
  else (s.frames x).key := by
    intro x
    rw [unlink_eq]
    simp only [withLinks, BufferPoolState.forget, update_apply]
    split <;> rfl
  have hpin : ∀ x, (((s.forget f).unlink f).frames x).pinCount = (s.frames x).pinCount := by
    intro x
    rw [unlink_eq]
    simp only [withLinks, BufferPoolState.forget, update_apply]
    split
    next hx => rw [hx]
    next => rfl
  have ht := h.table.forget h0
  refine ⟨⟨⟨_, he⟩, ?_, (h.pinned.forget h0).of_same (fun _ => by rw [unlink_eq]; rfl)
    fun _ => by rw [unlink_eq]; rfl⟩, by rw [unlink_eq]; rfl, fun x => ⟨hkey x, hpin x⟩⟩
  have ht' : Table ((s.forget f).unlink f) := by
    rw [unlink_eq]
    exact ht.of_same (fun _ => rfl) rfl rfl rfl rfl ht.idle
  exact {
    mem_iff := ht'.mem_iff
    free := fun x hx => by
      rcases List.mem_cons.mp hx with rfl | hx
      · exact (hkey x).trans (if_pos rfl)
      · exact ht'.free x hx
    idle := ht'.idle
    registered := ht'.registered
    valid := ht'.valid
    fresh := ht'.fresh }

/-- The frames are evicted one by one; the rest of the list is still in the pool, unpinned. -/
theorem evictAll_inv (h : Inv s guards) {l : List (Fin cap)} (hn : l.Nodup)
    (h0 : ∀ f ∈ l, (s.frames f).pinCount = 0 ∧ f ∉ s.freeList) :
    wp (l.forM fun f => do flushFrameIfDirty f; evictFrame f)
      (fun _ t => Inv t guards ∧
        ∀ x, (t.frames x).key = if x ∈ l then none else (s.frames x).key)
      (fun e t => Inv t guards ∧ Expected e) s := by
  induction l generalizing s with
  | nil => exact ⟨h, by simp⟩
  | cons f l ih =>
      obtain ⟨hf, hn⟩ := List.nodup_cons.mp hn
      show wp ((do flushFrameIfDirty f; evictFrame f) >>= fun _ =>
        l.forM fun f => do flushFrameIfDirty f; evictFrame f) _ _ _
      simp only [wp_bind]
      refine wp_mono (flushFrameIfDirty_inv h) ?_ fun _ _ h => h
      rintro _ t ⟨ht, files, rfl⟩
      have hsame : ∀ x, ((modifyFrame f (fun frame => { frame with dirty := false })
          { s with files }).frames x).pinCount = (s.frames x).pinCount ∧
          ((modifyFrame f (fun frame => { frame with dirty := false })
              { s with files }).frames x).key =
            (s.frames x).key := by
        intro x
        rw [modifyFrame_frames]
        split
        next he => exact ⟨by rw [he], by rw [he]⟩
        next => exact ⟨rfl, rfl⟩
      have hf0 := h0 f (by simp)
      refine wp_mono (evictFrame_inv ht ((hsame f).1.trans hf0.1) hf0.2) ?_ fun _ _ h => h
      rintro _ u ⟨hu, hfree, hkeys⟩
      refine wp_mono (ih hu hn fun x hx => ⟨?_, ?_⟩) ?_ fun _ _ h => h
      · rw [(hkeys x).2, (hsame x).1]
        exact (h0 x (by simp [hx])).1
      · rw [hfree]
        intro hm
        rcases List.mem_cons.mp hm with rfl | hm
        · exact hf hx
        · exact (h0 x (by simp [hx])).2 hm
      · rintro _ v ⟨hv, hkeys'⟩
        refine ⟨hv, fun x => ?_⟩
        rw [hkeys' x, (hkeys x).1, (hsame x).2]
        by_cases hxl : x ∈ l <;> by_cases hxf : x = f <;> simp [hxl, hxf]

omit [LawfulPageStore F] in
theorem mem_matching {fileId : Nat} {pageId : Option Nat} :
    f ∈ s.matching fileId pageId ↔ ∃ key, (s.frames f).key = some key ∧ key.fileId = fileId ∧
      (pageId = none ∨ pageId = some key.pageId) := by
  simp only [matching, List.mem_filter, List.mem_finRange, true_and]
  cases (s.frames f).key <;> simp

omit [LawfulPageStore F] in
theorem matching_nodup (s : BufferPoolState F cap) (fileId : Nat) (pageId : Option Nat) :
    (s.matching fileId pageId).Nodup := (List.nodup_finRange cap).filter _

theorem unpinned_of_matching (h : Inv s guards) {fileId : Nat}
    (hpin : ¬ (s.matching fileId none).any (fun f => decide ((s.frames f).pinCount > 0)) = true) :
    ∀ f ∈ s.matching fileId none, (s.frames f).pinCount = 0 ∧ f ∉ s.freeList := by
  intro f hf
  obtain ⟨key, hk, _⟩ := mem_matching.mp hf
  refine ⟨?_, fun hm => ?_⟩
  · by_contra hne
    exact hpin (List.any_eq_true.mpr ⟨f, hf, by simpa using Nat.pos_of_ne_zero hne⟩)
  · rw [h.table.free f hm] at hk
    cases hk

theorem flushFile_inv (h : Inv s guards) (fileId : Nat) :
    wp (flushFile fileId)
      (fun _ t => Inv t guards ∧ ∀ x key, (t.frames x).key = some key → key.fileId ≠ fileId)
      (fun e t => Inv t guards ∧ Expected e) s := by
  unfold flushFile
  simp only [wp_bind, wp_get, wp_ite, wp_throw]
  split
  next => exact ⟨h, trivial⟩
  next =>
    split
    next => exact ⟨h, trivial⟩
    next hpin =>
      refine wp_mono (evictAll_inv h (matching_nodup _ _ _) (unpinned_of_matching h hpin)) ?_
        fun _ _ h => h
      · rintro _ t ⟨ht, hkeys⟩
        refine wp_mono (flushRegistered_inv ht fileId) ?_ fun _ _ h => h
        rintro _ _ ⟨hu, files, rfl⟩
        refine ⟨hu, fun x key hx he => ?_⟩
        rw [hkeys x] at hx
        split at hx
        next => cases hx
        next hm => exact hm (mem_matching.mpr ⟨key, hx, he, by simp⟩)

theorem removeFile_inv (h : Inv s guards) (fileId : Nat) :
    wp (removeFile fileId) (fun file t => Inv t guards ∧ LawfulPageStore.Valid file)
      (fun e t => Inv t guards ∧ Expected e) s := by
  unfold removeFile
  simp only [wp_bind]
  refine wp_mono (flushFile_inv h fileId) ?_ fun _ _ h => h
  rintro _ t ⟨ht, hkeys⟩
  obtain ⟨l, hl⟩ := ht.order
  simp only [wp_get]
  cases hfile : t.files fileId with
  | none => exact ⟨ht, trivial⟩
  | some file =>
      simp only [wp_bind, wp_modify, wp_pure]
      refine ⟨⟨⟨l, hl.of_same rfl rfl⟩, ?_, ht.pinned.of_same (fun _ => rfl) fun _ => rfl⟩,
        ht.table.valid _ _ hfile⟩
      exact {
        mem_iff := ht.table.mem_iff
        free := ht.table.free
        idle := ht.table.idle
        registered := fun x key hx => by
          obtain ⟨file₀, h₀, hu⟩ := ht.table.registered x key hx
          exact ⟨file₀, by simpa [hkeys x key hx] using h₀, hu⟩
        valid := fun i file₀ hi => by
          rcases eq_or_ne i fileId with rfl | hne
          · simp at hi
          · exact ht.table.valid i file₀ (by simpa [hne] using hi)
        fresh := fun i hi => by
          rcases eq_or_ne i fileId with rfl | hne
          · simp
          · simpa [hne] using ht.table.fresh i hi }

/-! ## Guards -/

theorem unpinFrame_inv (h : Inv s guards) {g : Guard cap} (hg : g ∈ guards) :
    Inv (s.unpinFrame g.frameId) (guards.erase g) := by
  obtain ⟨l, hl⟩ := h.order
  have hkey := h.pinned.key g hg
  have hfree : g.frameId ∉ s.freeList := fun hm => by simp [h.table.free _ hm] at hkey
  have hpos : (s.frames g.frameId).pinCount ≠ 0 := by
    intro h0
    exact h.pinned.ne_of_pinCount h0 hg rfl
  let t := s.modifyFrame g.frameId fun frame => { frame with pinCount := frame.pinCount - 1 }
  have hframes : ∀ x, (t.frames x).key = (s.frames x).key ∧ (t.frames x).pinCount =
      if x = g.frameId then (s.frames x).pinCount - 1 else (s.frames x).pinCount := by
    intro x
    simp only [t, modifyFrame_frames]
    split
    next he => exact ⟨by rw [he], by rw [he]⟩
    next => exact ⟨rfl, rfl⟩
  have ht : Inv t (guards.erase g) := by
    refine ⟨⟨l, hl.of_same (links_modifyFrame rfl rfl) rfl⟩,
      h.table.of_same (fun x => (hframes x).1) rfl rfl rfl rfl fun x hx => ?_,
      h.pinned.drop hg (fun x => (hframes x).2) fun x => (hframes x).1⟩
    have hne : x ≠ g.frameId := by rintro rfl; simp [hx] at hkey
    simp only [t, modifyFrame_frames, if_neg hne]
    exact h.table.idle x hx
  rw [unpinFrame, if_neg hpos]
  show Inv (if (t.frames g.frameId).pinCount = 0 then t.touch g.frameId else t) (guards.erase g)
  split
  next => exact ht.touch hfree
  next => exact ht

end Redbase.Buffer
