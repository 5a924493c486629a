import Redbase.Buffer.Rejected
import Redbase.Buffer.Lemmas.Recency

/-!
# What a refused request leaves behind

A request that is refused has acquired its frame before. The frame does not go back: it came from
the free list, or it was taken from a page, or it was empty before.
-/

namespace Redbase.Page

open Prog

instance {I : Type} [ReliableIo I] : AcceptingPageStore (PageFile I) where
  accepts_law file p data h hu := by
    obtain ⟨st, hst⟩ := h
    simp only [wp_bind]
    refine wp_mono (storeWrite_spec hst data) ?_ ?_
    · rintro _ t ⟨-, ht⟩
      exact wp_mono (storeFlush_spec ht) (fun _ _ _ => trivial) fun _ _ => False.elim
    · rintro _ t ⟨-, hn, rfl⟩
      exact absurd ((hst.inUse_iff p).mp hu) hn

end Redbase.Page

namespace Redbase.Buffer

open Prog Bytes Page Function Linked BufferPoolState World

variable {F : Type} {cap : Nat} {s t : BufferPoolState F cap} {l : List (Fin cap)} {f f' : Fin cap}
  {guards : List (Guard cap)}

theorem BufferPoolState.LastUnpinned.unique (h : LastUnpinned s l f) (h' : LastUnpinned s l f') :
    f = f' := by
  obtain ⟨hf, l₁, l₂, rfl, hlater⟩ := h
  obtain ⟨hf', m₁, m₂, he, hlater'⟩ := h'
  rcases List.append_eq_append_iff.mp he with ⟨a, rfl, ha⟩ | ⟨a, rfl, ha⟩
  · cases a with
    | nil => exact (List.cons.inj ha).1
    | cons x a =>
        have hmem : f' ∈ l₂ := by
          rw [(List.cons.inj ha).2]
          simp
        exact absurd hf' (hlater f' hmem)
  · cases a with
    | nil => exact (List.cons.inj ha).1.symm
    | cons x a =>
        have hmem : f ∈ m₂ := by
          rw [(List.cons.inj ha).2]
          simp
        exact absurd hf (hlater' f hmem)

theorem Order.unique {l' : List (Fin cap)} (h : Order s l) (h' : Order s l') : l = l' := by
  have hc := Links.chain_ofList h.nodup
  have hc' := Links.chain_ofList h'.nodup
  rw [← h.links] at hc
  rw [← h'.links] at hc'
  exact hc.unique hc' (fun _ _ => by simp) fun _ _ _ _ => Option.some.inj

/-- Erasing an element that yields nothing changes nothing of what the list yields. -/
theorem filterMap_erase {α β : Type} [DecidableEq α] {k : α → Option β} {a : α} (l : List α)
    (hk : k a = none) :
    (l.erase a).filterMap k = l.filterMap k := by
  induction l with
  | nil => rfl
  | cons b l ih =>
      rcases eq_or_ne b a with rfl | hne
      · rw [List.erase_cons_head, List.filterMap_cons_none hk]
      · rw [List.erase_cons_tail (by simpa using hne), List.filterMap_cons, List.filterMap_cons, ih]

theorem takesEmpty_iff :
    TakesEmpty s ↔ s.freeList = [] ∧ ∃ l f, Order s l ∧ LastUnpinned s l f ∧
      (s.frames f).key = none := by
  refine and_congr_right fun _ => ⟨?_, ?_⟩
  · rintro ⟨l₁, f, l₂, ho, hpin, hlater, hkey⟩
    exact ⟨_, f, ho, ⟨hpin, l₁, l₂, rfl, hlater⟩, hkey⟩
  · rintro ⟨_, f, ho, ⟨hpin, l₁, l₂, rfl, hlater⟩, hkey⟩
    exact ⟨l₁, f, l₂, ho, hpin, hlater, hkey⟩

/-- The pool `t` is `s`, with other files, after frame `f` was acquired. -/
structure Took (s : BufferPoolState F cap) (l : List (Fin cap)) (f : Fin cap)
    (t : BufferPoolState F cap) :
    Prop where
  freeList : s.freeList = f :: t.freeList ∨ s.freeList = [] ∧ t.freeList = [] ∧ LastUnpinned s l f
  key : (t.frames f).key = none
  order : Order t (f :: l.erase f)
  pageTable : s.freeList = [] → (s.frames f).key = none → t.pageTable = s.pageTable
  frames : s.freeList = [] → (s.frames f).key = none → ∀ x, (t.frames x).key = (s.frames x).key ∧
    (t.frames x).data = (s.frames x).data ∧ (t.frames x).dirty = (s.frames x).dirty ∧
    (t.frames x).pinCount = (s.frames x).pinCount

theorem Took.setFiles (h : Took s l f t) (files : Nat → Option F) :
    Took s l f { t with files } where
  freeList := h.freeList
  key := h.key
  order := h.order.of_same rfl rfl
  pageTable := h.pageTable
  frames := h.frames

/-- The acquired frame cost nothing exactly if none was free and it was empty. -/
theorem Took.costsNothing_iff (ho : Order s l) (ht : Took s l f t) :
    CostsNothing s t ↔ TakesEmpty s := by
  rw [takesEmpty_iff]
  constructor
  · intro hc
    rcases ht.freeList with hpop | ⟨hnil, -, hlast⟩
    · rw [hc.freeList] at hpop
      exact absurd hpop (List.ne_cons_self)
    · exact ⟨hnil, l, f, ho, hlast, (hc.key f).symm.trans ht.key⟩
  · rintro ⟨hnil, l', f', ho', hlast', hkey⟩
    rcases ht.freeList with hpop | ⟨-, hnil', hlast⟩
    · rw [hnil] at hpop
      cases hpop
    · obtain rfl : l = l' := ho.unique ho'
      obtain rfl := hlast.unique hlast'
      have hframes := ht.frames hnil hkey
      refine ⟨ht.pageTable hnil hkey, fun x => (hframes x).1, fun x => (hframes x).2.1,
        fun x => (hframes x).2.2.1, fun x => (hframes x).2.2.2, fun keys hkeys => ?_,
          hnil'.trans hnil.symm⟩
      obtain ⟨l', ho', rfl⟩ := hkeys
      obtain rfl : l = l' := ho.unique ho'
      refine ⟨_, ht.order, ?_⟩
      simp only [fun x => (hframes x).1]
      rw [List.filterMap_cons_none (f := fun x => (s.frames x).key) hkey]
      exact filterMap_erase l hkey

section Acquire

variable [AcceptingPageStore F]

theorem Took.pop {rest : List (Fin cap)} (h : Inv s guards) (ho : Order s l)
    (hf : s.freeList = f :: rest) :
    Took s l f (withLinks { s with freeList := rest } (Links.ofList (f :: l))) where
  freeList := Or.inl hf
  key := h.table.free f (hf ▸ List.mem_cons_self)
  order := by
    have hnot : f ∉ l := fun hm => (ho.mem_iff f).mp hm (hf ▸ List.mem_cons_self)
    rw [List.erase_of_not_mem hnot]
    exact ho.pop hf
  pageTable hnil := by simp [hf] at hnil
  frames hnil := by simp [hf] at hnil

/-- The frame is taken from its page; one that is empty is only moved to the head. -/
theorem Took.last (h : Inv s guards) (ho : Order s l) (hnil : s.freeList = [])
    (hlast : LastUnpinned s l f) (hl : t.links = s.links) (hfree : t.freeList = s.freeList)
    (hclean : (s.frames f).key = none → t = s) :
    Took s l f ((t.forget f).withLinks (Links.ofList (f :: l.erase f))) where
  freeList := Or.inr ⟨hnil, hfree.trans hnil, hlast⟩
  key := by simp [withLinks, BufferPoolState.forget]
  order := by
    have hot : Order (t.forget f) l := ho.of_same ((forget_links f t).trans hl) hfree
    have hmem : f ∈ l := (ho.mem_iff f).mpr (by simp [hnil])
    have htouch := hot.touch hmem
    rwa [touch_of_links hot.links hot.nodup] at htouch
  pageTable _ hkey := by
    rw [hclean hkey]
    simp only [withLinks, BufferPoolState.forget, hkey]
  frames _ hkey x := by
    rw [hclean hkey]
    have hdirty := (h.table.idle f hkey).2
    rcases eq_or_ne x f with rfl | hx
    · simp [withLinks, BufferPoolState.forget, hkey, hdirty]
    · simp [withLinks, BufferPoolState.forget, hx]

theorem acquireFrame_took (h : Inv s guards) (ho : Order s l) :
    wp acquireFrame (fun f t => Took s l f t) (fun e _ => ¬ Refusal e) s := by
  refine acquireFrame_spec ho (fun f rest hfl => .pop h ho hfl) (fun _ _ => by simp [Refusal])
    fun hnil f hlast => wp_flushFrameIfDirty (fun _ => ?_) fun hd => ?_
  · exact .last h ho hnil hlast rfl rfl fun _ => rfl
  · cases hk : (s.frames f).key with
    | none =>
        rw [(h.table.idle f hk).2] at hd
        cases hd
    | some key =>
        obtain ⟨file, hfile, hu⟩ := h.table.registered f key hk
        refine ⟨key, file, rfl, hfile, ?_⟩
        refine wp_mono (AcceptingPageStore.accepts_law file key.pageId _
          (h.table.valid _ _ hfile) hu) ?_ ?_
        · intro _ file' _
          refine .last h ho hnil hlast (links_modifyFrame rfl rfl) rfl fun hkey => ?_
          rw [hk] at hkey
          cases hkey
        · intro e _ he
          simp [Refusal, he]

/-- A request that is refused has acquired its frame. -/
theorem request_took (h : Inv s guards) (ho : Order s l)
    {source : PoolM F cap (BufferKey × PageData)} (hsource : OnlyFiles source) (dirty : Bool) :
    wp (request source dirty) (fun _ _ => True) (fun e t => Refusal e → ∃ f, Took s l f t) s := by
  unfold request
  simp only [wp_bind]
  refine wp_mono (acquireFrame_took h ho) ?_ fun e _ he hr => absurd hr he
  intro f t ht
  refine wp_mono (hsource t) ?_ ?_
  · rintro ⟨key, data⟩ _ ⟨files, rfl⟩
    refine wp_mono (installFrame_outcome f key data dirty _) (fun _ _ _ => trivial) ?_
    rintro e _ ⟨-, rfl⟩ -
    exact ⟨f, ht.setFiles files⟩
  · rintro e _ ⟨-, files, rfl⟩ -
    exact ⟨f, ht.setFiles files⟩

end Acquire

theorem pinFrame_error (f : Fin cap) (s : BufferPoolState F cap) :
    wp (pinFrame f) (fun _ _ => True) (fun e _ => e = .panic) s := by
  unfold pinFrame
  simp only [wp_bind, wp_get]
  cases checked 32 ((s.frames f).pinCount + 1) with
  | none => exact rfl
  | some pinCount => trivial

section Step

variable [AcceptingPageStore F] {w : World F cap} {e : Event F cap}

/-- A poisoned lock is reported, not the bad request. -/
theorem Rejected.poisoned (hr : Rejected w e) : w.poisoned = false := by
  cases hp : w.poisoned with
  | false => rfl
  | true =>
      cases e with
      | getPage _ _ | getPageMut _ _ | allocatePage _ =>
          obtain ⟨why, hw, href⟩ := hr
          simp only [World.step, World.call, hp, if_true] at hw
          cases hw
          simp [Refusal] at href
      | _ => exact hr.elim

/-- Only a request for a page that is not cached is refused. -/
theorem Rejected.misses (hr : Rejected w e) :
    Misses w.pool e ∧ ∃ why, (w.step e).2 = .failed why ∧ Refusal why := by
  have hp := hr.poisoned
  have hhit : ∀ {m : PoolM F cap (Guard cap)}, wp m (fun _ _ => True)
      (fun e _ => e = .panic) w.pool →
      ∀ why, (w.call m giveGuard).2 = .failed why → ¬ Refusal why := by
    intro m hm why hw
    refine call_cases (R := fun t => t.2 = .failed why → ¬ Refusal why) hp hm ?_ ?_ hw
    · rintro g pool - ⟨⟩
    · rintro _ pool rfl hf
      cases hf
      simp [Refusal]
  cases e with
  | getPage i p =>
      refine ⟨?_, hr⟩
      obtain ⟨why, hw, href⟩ := hr
      by_contra hm
      obtain ⟨f, hf⟩ := Option.ne_none_iff_exists'.mp hm
      have hstep : w.step (.getPage i p) = w.call _ giveGuard :=
        call_congr (getPage_hit hf) giveGuard
      rw [hstep] at hw
      refine hhit ?_ why hw href
      simp only [wp_bind, wp_pure]
      exact pinFrame_error f w.pool
  | getPageMut i p =>
      refine ⟨?_, hr⟩
      obtain ⟨why, hw, href⟩ := hr
      by_contra hm
      obtain ⟨f, hf⟩ := Option.ne_none_iff_exists'.mp hm
      have hstep : w.step (.getPageMut i p) = w.call _ giveGuard :=
        call_congr (getPageMut_hit hf) giveGuard
      rw [hstep] at hw
      refine hhit ?_ why hw href
      simp only [wp_bind, wp_pure, wp_modify]
      exact pinFrame_error f w.pool
  | allocatePage i => exact ⟨trivial, hr⟩
  | _ => exact hr.elim

/-- A refused request costs nothing exactly if no frame was free and the one taken was empty. -/
theorem Rejected.costsNothing_iff (hr : Rejected w e) (hi : Inv w.pool w.guards) :
    CostsNothing w.pool (w.step e).1.pool ↔ TakesEmpty w.pool := by
  have hp := hr.poisoned
  obtain ⟨hm, why, hw, href⟩ := hr.misses
  obtain ⟨source, dirty, hstep, hsource, -⟩ := step_of_miss hm
  obtain ⟨l, ho⟩ := hi.order
  rw [hstep] at hw ⊢
  refine call_cases (R := fun t => t.2 = .failed why →
      (CostsNothing w.pool t.1.pool ↔ TakesEmpty w.pool)) hp
    (request_took hi ho hsource dirty) ?_ ?_ hw
  · rintro g pool - ⟨⟩
  · rintro _ pool htook ⟨⟩
    obtain ⟨f, ht⟩ := htook href
    exact ht.costsNothing_iff ho

end Step

end Redbase.Buffer
