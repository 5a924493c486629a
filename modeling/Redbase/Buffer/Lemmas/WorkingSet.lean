import Redbase.Buffer.Lemmas.Recency
import Redbase.Lib.LastUsed

/-!
# The pages that a pool holds

One guard at a time: each request moves its page to the head of the list, and the page that makes
room for it is the one at the end.
-/

namespace Redbase.Buffer

open Prog Bytes Page Function BufferPoolState World Recency

section Definitions

variable {F : Type} {cap : Nat}

/-- The pages that were requested, the newest request first. -/
def requests : List (Event F cap × Reply F cap) → List BufferKey
  | [] => []
  | (_, .guard g _) :: h => g.key :: requests h
  | _ :: h => requests h

variable [PageStore F]

/-- A request that is met, while no other guard lives. -/
def Met (s : World F cap) (e : Event F cap) : Prop :=
  s.guards = [] ∧ ∃ g d, (s.step e).2 = .guard g d

/-- One guard at a time; no file is taken out of the pool. -/
def OneGuard (s : World F cap) : Event F cap → Prop
  | .flushFile _ | .removeFile _ => False
  | .getPage fileId pageId => Met s (.getPage fileId pageId)
  | .getPageMut fileId pageId => Met s (.getPageMut fileId pageId)
  | .allocatePage fileId => Met s (.allocatePage fileId)
  | _ => True

end Definitions

variable {F : Type} [LawfulPageStore F] {cap : Nat} {s t : BufferPoolState F cap}
  {l : List (Fin cap)} {f : Fin cap} {keys : List BufferKey} {key : BufferKey}
  {guards : List (Guard cap)}

/-- The frames in use hold the pages `keys`, in their order. -/
structure Places (s : BufferPoolState F cap) (l : List (Fin cap)) (keys : List BufferKey) :
    Prop where
  order : Order s l
  holds : List.Forall₂ (fun f key => s.pageTable key = some f) l keys

namespace Places

omit [LawfulPageStore F] in
theorem of_same (h : Places s l keys) (hl : t.links = s.links) (hf : t.freeList = s.freeList)
    (ht : t.pageTable = s.pageTable) :
    Places t l keys :=
  ⟨h.order.of_same hl hf, ht ▸ h.holds⟩

omit [LawfulPageStore F] in
theorem length_le (h : Places s l keys) : keys.length ≤ cap := by
  rw [← h.holds.length_eq]
  simpa using h.order.nodup.length_le_card

theorem at_iff (h : Table s) {x : Fin cap} {key' : BufferKey} (hk : s.pageTable key = some f)
    (hx : s.pageTable key' = some x) : x = f ↔ key' = key := by
  constructor
  · rintro rfl
    exact Option.some.inj (((h.mem_iff key' x).mp hx).symm.trans ((h.mem_iff key x).mp hk))
  · rintro rfl
    exact Option.some.inj (hx.symm.trans hk)

omit [LawfulPageStore F] in
theorem exists_place (h : Places s l keys) (hk : key ∈ keys) :
    ∃ f ∈ l, s.pageTable key = some f := by
  obtain ⟨-, h⟩ := h
  induction h with
  | nil => cases hk
  | @cons f key' l keys hf h ih =>
      rcases List.mem_cons.mp hk with rfl | hk
      · exact ⟨f, List.mem_cons_self, hf⟩
      · obtain ⟨x, hx, hat⟩ := ih hk
        exact ⟨x, List.mem_cons_of_mem _ hx, hat⟩

/-- Every cached page is one of them. -/
theorem mem_iff (h : Places s l keys) (hi : Inv s guards) :
    key ∈ keys ↔ s.pageTable key ≠ none := by
  constructor
  · intro hk
    obtain ⟨f, -, hf⟩ := h.exists_place hk
    rw [hf]
    exact Option.some_ne_none f
  · intro hk
    obtain ⟨f, hf⟩ := Option.ne_none_iff_exists'.mp hk
    have hmem := (h.order.mem_iff f).mpr (hi.not_free hf)
    obtain ⟨i, hi', rfl⟩ := List.getElem_of_mem hmem
    have hlen := h.holds.length_eq
    have hat := h.holds.get hi' (hlen ▸ hi')
    exact ((at_iff hi.table hf hat).mp rfl) ▸ List.getElem_mem _

/-! ## Requests -/

/-- The page is cached. -/
theorem hit (h : Places s l keys) (hi : Inv s guards) (hk : s.pageTable key = some f)
    (ho : Order t (f :: l.erase f)) (ht : t.pageTable = s.pageTable) :
    Places t (f :: l.erase f) (use cap keys key) := by
  refine ⟨ho, ?_⟩
  rw [ht, use_of_mem ((h.mem_iff hi).mpr (by simp [hk])) h.length_le]
  exact .cons hk (forall₂_erase (fun x key' hx => at_iff hi.table hk hx) h.holds)

omit [LawfulPageStore F] in
/-- The page comes into a frame that was free. -/
theorem fill (h : Places s l keys) (hfree : s.freeList ≠ []) (hf : f ∉ l)
    (ho : Order t (f :: l.erase f)) (hs : Spares s t f) (hk : t.pageTable key = some f) :
    Places t (f :: l.erase f) (use cap keys key) := by
  have hnew : key ∉ keys := by
    intro hmem
    obtain ⟨x, hx, hat⟩ := h.exists_place hmem
    have hxf : x = f := Option.some.inj ((hs key x hat (.inr hfree)).symm.trans hk)
    exact hf (hxf ▸ hx)
  have hroom : keys.length < cap := by
    have hlen := ho.nodup.length_le_card
    rw [List.erase_of_not_mem hf, List.length_cons, h.holds.length_eq, Fintype.card_fin] at hlen
    exact hlen
  refine ⟨ho, ?_⟩
  rw [use_of_room hnew hroom, List.erase_of_not_mem hf]
  exact .cons hk (h.holds.imp fun x key' hx => hs key' x hx (.inr hfree))

/-- The page comes into the frame at the end of the list. -/
theorem replace (h : Places s l keys) (hi : Inv s []) (hfree : s.freeList = [])
    (hlast : LastUnpinned s l f) (ho : Order t (f :: l.erase f)) (hs : Spares s t f)
    (hk : t.pageTable key = some f) :
    Places t (f :: l.erase f) (use cap keys key) := by
  obtain ⟨l₁, l₂, hl, hpinned⟩ := hlast.later
  have hnil : l₂ = [] := List.eq_nil_iff_forall_not_mem.mpr fun x hx =>
    hpinned x hx (hi.pinned.count x)
  subst hnil
  have hne : keys ≠ [] := by
    rintro rfl
    rw [List.forall₂_nil_right_iff.mp h.holds] at hl
    exact List.append_ne_nil_of_right_ne_nil l₁ (List.cons_ne_nil f []) hl.symm
  obtain ⟨rest, hrest, hholds⟩ : ∃ rest, use cap keys key = key :: rest ∧
      List.Forall₂ (fun f key => s.pageTable key = some f) (l.erase f) rest := by
    by_cases hmem : key ∈ keys
    · obtain ⟨x, -, hat⟩ := h.exists_place hmem
      have hxf : x = f := by
        by_contra hne
        exact hne (Option.some.inj ((hs key x hat (.inl hne)).symm.trans hk))
      exact ⟨_, use_of_mem hmem h.length_le,
        forall₂_erase (fun y key' hy => at_iff hi.table (hxf ▸ hat) hy) h.holds⟩
    · have hfull : keys.length = cap := by
        apply Nat.le_antisymm h.length_le
        have hsub : List.finRange cap ⊆ l := fun x _ => (h.order.mem_iff x).mpr (by simp [hfree])
        have hle := ((List.nodup_finRange cap).subperm hsub).length_le
        rwa [List.length_finRange, h.holds.length_eq] at hle
      have hdrop : l.erase f = l.dropLast := by
        have hnot : f ∉ l₁ := fun hf => (List.nodup_append.mp (hl ▸ h.order.nodup)).2.2 f hf
          f (by simp) rfl
        rw [hl, List.erase_append_right _ hnot, List.erase_cons_head, List.append_nil,
          List.dropLast_concat]
      refine ⟨_, use_of_full hmem hfull hne, ?_⟩
      rw [hdrop, List.dropLast_eq_take, List.dropLast_eq_take, h.holds.length_eq]
      exact List.forall₂_take _ h.holds
  refine ⟨ho, ?_⟩
  rw [hrest]
  refine .cons hk ?_
  have hother : ∀ x ∈ l.erase f, x ≠ f := fun x hx hxf => h.order.nodup.not_mem_erase (hxf ▸ hx)
  exact ((List.forall₂_and_left _ _).mpr ⟨hother, hholds⟩).imp
    fun x key' hx => hs key' x hx.2 (.inl hx.1)

end Places

/-! ## Steps -/

/-- The pool holds the pages `keys`; the frame of the one guard that may live was used last. -/
structure Caches (s : World F cap) (keys : List BufferKey) : Prop where
  places : ∃ l, Places s.pool l keys ∧ ∀ g ∈ s.guards, s.guards = [g] ∧ l.head? = some g.frameId

/-- The pages that the pool holds after a reply. -/
def cachedAfter (keys : List BufferKey) : Reply F cap → List BufferKey
  | .guard g _ => use cap keys g.key
  | _ => keys

omit [LawfulPageStore F] in
theorem ok_of_guard {w : World F cap} {m : PoolM F cap (Guard cap)} {g : Guard cap} {d : PageData}
    (h : (w.call m giveGuard).2 = .guard g d) :
    ∃ pool, m w.pool = .ok g pool ∧ (w.call m giveGuard).1.pool = pool ∧
      (w.call m giveGuard).1.guards = g :: w.guards := by
  unfold World.call at h ⊢
  split at h
  next => cases h
  next hp =>
    rw [if_neg hp]
    cases hm : m w.pool with
    | error why pool =>
        rw [hm] at h
        cases h
    | ok g' pool =>
        rw [hm] at h
        cases h
        exact ⟨pool, rfl, rfl, rfl⟩

omit [LawfulPageStore F] in
theorem pinFrame_order (ho : Order s l) (hf : f ∈ l) :
    wp (pinFrame f) (fun _ t => Order t (f :: l.erase f) ∧ t.pageTable = s.pageTable)
      (fun _ _ => True) s := by
  unfold pinFrame
  simp only [wp_bind, wp_get]
  cases checked 32 ((s.frames f).pinCount + 1) with
  | none => trivial
  | some pinCount =>
      simp only [wp_bind, wp_modify]
      refine ⟨(ho.of_same (links_modifyFrame rfl rfl) rfl).touch hf, ?_⟩
      rw [touch_eq]
      rfl

theorem acquireFrame_free (ho : Order s l) :
    wp acquireFrame (fun f _ => s.freeList ≠ [] → f ∉ l) (fun _ _ => True) s := by
  refine acquireFrame_spec ho (fun f rest hfl _ hmem => ?_) (fun _ _ => trivial) fun hfl f _ => ?_
  · exact (ho.mem_iff f).mp hmem (by simp [hfl])
  · exact wp_mono (wp_true _ _) (fun _ _ _ hne => absurd hfl hne) fun _ _ _ => trivial

/-- Nothing that tells which frame holds which page, or when it was used, has changed. -/
structure Unmoved (s t : BufferPoolState F cap) : Prop where
  links : t.links = s.links
  freeList : t.freeList = s.freeList
  pageTable : t.pageTable = s.pageTable

omit [LawfulPageStore F] in
theorem Unmoved.trans {u : BufferPoolState F cap} (h : Unmoved s t) (h' : Unmoved t u) :
    Unmoved s u :=
  ⟨h'.links.trans h.links, h'.freeList.trans h.freeList, h'.pageTable.trans h.pageTable⟩

theorem flushFrameIfDirty_unmoved (f : Fin cap) (s : BufferPoolState F cap) :
    wp (flushFrameIfDirty f) (fun _ t => Unmoved s t) (fun _ t => Unmoved s t) s := by
  refine wp_mono (flushFrameIfDirty_frame f s) ?_ ?_
  · rintro _ _ ⟨files, rfl⟩
    exact ⟨links_modifyFrame rfl rfl, rfl, rfl⟩
  · rintro _ _ ⟨files, rfl⟩
    exact ⟨rfl, rfl, rfl⟩

theorem forceFile_unmoved (fileId : Nat) (pageId : Option Nat) (s : BufferPoolState F cap) :
    wp (forceFile fileId pageId) (fun _ t => Unmoved s t) (fun _ t => Unmoved s t) s := by
  have hsame : Unmoved s s := ⟨rfl, rfl, rfl⟩
  unfold forceFile
  simp only [wp_bind, wp_get, wp_ite, wp_throw]
  split
  next => exact hsame
  next =>
    refine wp_mono (wp_forM (R := fun _ t => Unmoved s t) (fun f _ t ht => ?_) hsame)
      (fun _ t ht => ?_) fun _ _ h => h
    · exact wp_mono (flushFrameIfDirty_unmoved f t) (fun _ _ => ht.trans) fun _ _ => ht.trans
    · refine wp_mono (withFile_onlyFiles _ _ t) ?_ ?_
      · rintro _ _ ⟨files, rfl⟩
        exact ht.trans ⟨rfl, rfl, rfl⟩
      · rintro _ _ ⟨-, files, rfl⟩
        exact ht.trans ⟨rfl, rfl, rfl⟩

omit [LawfulPageStore F] in
theorem registerFile_unmoved (file : F) (s : BufferPoolState F cap) :
    wp (registerFile file) (fun _ t => Unmoved s t) (fun _ t => Unmoved s t) s := by
  unfold registerFile
  simp only [wp_bind, wp_get]
  cases checked 32 (s.nextFileId + 1) with
  | none => exact ⟨rfl, rfl, rfl⟩
  | some nextFileId => exact ⟨rfl, rfl, rfl⟩

section Steps

variable {w : World F cap} {e : Event F cap} {h : List (Event F cap × Reply F cap)}

omit [LawfulPageStore F] in
theorem Caches.of_unmoved {w' : World F cap} (hc : Caches w keys) (hp : Unmoved w.pool w'.pool)
    (hg : w'.guards = w.guards) :
    Caches w' keys := by
  obtain ⟨l, hl, hone⟩ := hc.places
  exact ⟨l, hl.of_same hp.links hp.freeList hp.pageTable, hg ▸ hone⟩

omit [LawfulPageStore F] in
theorem call_unmoved {α : Type} {m : PoolM F cap α}
    {k : α → World F cap → World F cap × Reply F cap} (hp : w.poisoned = false) (hc : Caches w keys)
    (hm : wp m (fun _ t => Unmoved w.pool t) (fun _ t => Unmoved w.pool t) w.pool)
    (hk : ∀ a (w' : World F cap), (k a w').1 = w' ∧ cachedAfter keys (k a w').2 = keys) :
    Caches (w.call m k).1 (cachedAfter keys (w.call m k).2) := by
  refine call_cases (R := fun t => Caches t.1 (cachedAfter keys t.2)) hp hm (fun a pool ht => ?_)
    fun why pool ht => ?_
  · obtain ⟨hw, hkeys⟩ := hk a { w with pool }
    rw [hw, hkeys]
    exact hc.of_unmoved ht rfl
  · exact hc.of_unmoved ht rfl

/-- A request that gets its guard. -/
theorem request_caches (hp : w.poisoned = false) (hi : Inv w.pool w.guards) (hc : Caches w keys)
    (he : w.Possible e) (hm : Met w e) (hp' : (w.step e).1.poisoned = false)
    (hhit : ¬ Misses w.pool e → ∃ m f key, w.step e = w.call m giveGuard ∧
      w.pool.pageTable key = some f ∧
      ∀ l, Order w.pool l → f ∈ l →
        wp m (fun g t => g.frameId = f ∧ g.key = key ∧ Order t (f :: l.erase f) ∧
        t.pageTable = w.pool.pageTable) (fun _ _ => True) w.pool) :
    Caches (w.step e).1 (cachedAfter keys (w.step e).2) := by
  obtain ⟨hnone, g, d, hgd⟩ := hm
  obtain ⟨l, hl, -⟩ := hc.places
  have hinv := (step_kept hp hi e he).1 hp'
  rw [hgd]
  obtain ⟨t, ht, hguards, hplaces⟩ : ∃ t, (w.step e).1.pool = t ∧
      (w.step e).1.guards = g :: w.guards ∧
      Places t (g.frameId :: l.erase g.frameId) (use cap keys g.key) := by
    by_cases hmiss : Misses w.pool e
    · obtain ⟨source, dirty, hstep, hsource, -⟩ := step_of_miss hmiss
      rw [hstep] at hgd
      obtain ⟨t, hrun, ht, hguards⟩ := ok_of_guard hgd
      rw [← hstep] at ht hguards
      obtain ⟨⟨u, hu⟩, hot, hs⟩ := (wp_ok hrun (request_outcome hi hl.order hsource dirty) :)
      have hk : t.pageTable g.key = some g.frameId := by
        rw [ht, hguards] at hinv
        exact (hinv.table.mem_iff _ _).mpr (hinv.pinned.key g List.mem_cons_self)
      refine ⟨t, ht, hguards, ?_⟩
      by_cases hfree : w.pool.freeList = []
      · exact hl.replace (hnone ▸ hi) hfree
          ((wp_ok hu (acquireFrame_last hi hl.order)).1 hfree) hot hs hk
      · exact hl.fill hfree ((wp_ok hu (acquireFrame_free hl.order) :) hfree) hot hs hk
    · obtain ⟨m, f, key, hstep, hf, hm⟩ := hhit hmiss
      rw [hstep] at hgd
      obtain ⟨t, hrun, ht, hguards⟩ := ok_of_guard hgd
      rw [← hstep] at ht hguards
      obtain ⟨rfl, rfl, hot, hsame⟩ :=
        (wp_ok hrun (hm l hl.order ((hl.order.mem_iff f).mpr (hi.not_free hf))) :)
      exact ⟨t, ht, hguards, hl.hit hi hf hot hsame⟩
  refine ⟨_, ht ▸ hplaces, fun g' hg' => ?_⟩
  rw [hguards, hnone] at hg' ⊢
  obtain rfl := List.mem_singleton.mp hg'
  exact ⟨rfl, rfl⟩

theorem step_caches (hp : w.poisoned = false) (hi : Inv w.pool w.guards) (hc : Caches w keys)
    (he : w.Possible e) (ho : OneGuard w e) (hp' : (w.step e).1.poisoned = false) :
    Caches (w.step e).1 (cachedAfter keys (w.step e).2) := by
  cases e with
  | registerFile file =>
      exact call_unmoved hp hc (registerFile_unmoved file _) fun _ _ => ⟨rfl, rfl⟩
  | getPage i p =>
      refine request_caches hp hi hc he ho hp' fun hm => ?_
      obtain ⟨f, hf⟩ := Option.ne_none_iff_exists'.mp hm
      refine ⟨_, f, ⟨i, p⟩, call_congr (getPage_hit hf) giveGuard, hf, fun l hl hmem => ?_⟩
      simp only [wp_bind, wp_pure]
      exact wp_mono (pinFrame_order hl hmem) (fun _ _ ht => ⟨trivial, trivial, ht⟩) fun _ _ => id
  | getPageMut i p =>
      refine request_caches hp hi hc he ho hp' fun hm => ?_
      obtain ⟨f, hf⟩ := Option.ne_none_iff_exists'.mp hm
      refine ⟨_, f, ⟨i, p⟩, call_congr (getPageMut_hit hf) giveGuard, hf, fun l hl hmem => ?_⟩
      simp only [wp_bind, wp_modify, wp_pure]
      refine wp_mono (pinFrame_order hl hmem) (fun _ t ht => ?_) fun _ _ => id
      exact ⟨trivial, trivial, ht.1.of_same (links_modifyFrame rfl rfl) rfl, ht.2⟩
  | allocatePage i => exact request_caches hp hi hc he ho hp' fun hm => absurd trivial hm
  | forceFile i p => exact call_unmoved hp hc (forceFile_unmoved i p _) fun _ _ => ⟨rfl, rfl⟩
  | flushFile i => exact ho.elim
  | removeFile i => exact ho.elim
  | write g d => exact hc.of_unmoved ⟨links_modifyFrame rfl rfl, rfl, rfl⟩ rfl
  | drop g =>
      obtain ⟨l, hl, hone⟩ := hc.places
      obtain ⟨hguards, hhead⟩ := hone g he
      obtain ⟨rest, rfl⟩ : ∃ rest, l = g.frameId :: rest := by
        cases l with
        | nil => cases hhead
        | cons f rest => exact ⟨rest, by cases hhead; rfl⟩
      have hpin : (w.pool.frames g.frameId).pinCount = 1 := by
        rw [hi.pinned.count, hguards]
        simp
      have hpool : (w.step (.drop g)).1.pool = touch g.frameId
          (w.pool.modifyFrame g.frameId fun frame =>
            { frame with pinCount := frame.pinCount - 1 }) := by
        simp only [World.step, hp, Bool.false_eq_true, if_false]
        unfold unpinFrame
        rw [if_neg (by rw [hpin]; decide), if_pos (by rw [modifyFrame_frames, if_pos rfl, hpin])]
      have htouched := (hl.order.of_same (t := w.pool.modifyFrame g.frameId fun frame =>
        { frame with pinCount := frame.pinCount - 1 }) (links_modifyFrame rfl rfl) rfl).touch
          List.mem_cons_self
      rw [List.erase_cons_head] at htouched
      refine ⟨g.frameId :: rest, ⟨hpool ▸ htouched, ?_⟩, fun g' hg' => ?_⟩
      · rw [hpool, touch_eq]
        exact hl.holds
      · have hnone : (w.step (.drop g)).1.guards = [] := by
          show w.guards.erase g = []
          rw [hguards, List.erase_cons_head]
        rw [hnone] at hg'
        cases hg'

/-! ## Runs -/

theorem World.Run.mono {P Q : World F cap → Event F cap → Prop} (hPQ : ∀ w e, P w e → Q w e)
    (hr : World.Run P h w) :
    World.Run Q h w := by
  induction hr with
  | new => exact .new
  | step e _ he hP ih => exact ih.step e he (hPQ _ _ hP)

theorem Run.caches (hr : World.Run OneGuard h w) (hp : w.poisoned = false) :
    Caches w ((lastUsed (requests h)).take cap) := by
  induction hr with
  | new =>
      refine ⟨[], ⟨order_new, ?_⟩, fun g hg => by cases hg⟩
      rw [requests, lastUsed, List.take_nil]
      exact .nil
  | @step h w e hr he ho ih =>
      cases hw : w.poisoned with
      | true =>
          rw [step_poisoned hw e] at hp
          cases hp
      | false =>
          have hstep := step_caches hw (Run.inv hr hw) (ih hw) he ho hp
          cases hreply : (w.step e).2 with
          | guard g d =>
              rw [hreply, cachedAfter, ← take_lastUsed] at hstep
              exact hstep
          | _ =>
              rw [hreply] at hstep
              exact hstep

end Steps

end Redbase.Buffer
