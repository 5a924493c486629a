import Redbase.Record.Run
import Redbase.Buffer.Lemmas.WorkingSet
import Redbase.Buffer.History

/-!
# How a record file uses its pool

Every method takes a guard, writes through it at once and drops it before it takes another one. So
the pool of a record file goes through a run of one client with one guard.
-/

namespace Redbase.Record

open Prog Bytes Page Buffer BufferPoolState World RecordFile RecordScan

variable {I : Type} [ReliableIo I] {cap : Nat} {α β : Type}

/-! ## The guards -/

theorem request_writable {F : Type} [PageStore F] {s : BufferPoolState F cap}
    (source : PoolM F cap (BufferKey × PageData)) :
    wp (request source true) (fun g t => g.writable = true ∧ (t.frames g.frameId).dirty = true)
      (fun _ _ => True) s := by
  unfold request
  rw [wp_bind]
  refine wp_mono (wp_true _ _) (fun f t _ => ?_) fun _ _ _ => trivial
  rw [wp_bind]
  refine wp_mono (wp_true _ _) (fun x t _ => ?_) fun _ _ _ => trivial
  obtain ⟨key, data⟩ := x
  rw [wp_bind]
  refine wp_mono (installFrame_outcome f key data true t) ?_ fun _ _ _ => trivial
  rintro _ _ ⟨-, rfl⟩
  rw [wp_pure, touch_eq]
  exact ⟨rfl, by simp [withLinks, place]⟩

theorem getPageMut_writable {F : Type} [PageStore F] (fileId pageId : Nat)
    (s : BufferPoolState F cap) :
    wp (getPageMut fileId pageId) (fun g t => g.writable = true ∧ (t.frames g.frameId).dirty = true)
      (fun _ _ => True) s := by
  cases hk : s.pageTable ⟨fileId, pageId⟩ with
  | none =>
      unfold wp
      rw [getPageMut_miss hk]
      exact request_writable _
  | some f =>
      unfold wp
      rw [getPageMut_hit hk]
      show wp _ _ _ s
      simp only [wp_bind, wp_modify, wp_pure]
      refine wp_mono (wp_true _ _) (fun _ t _ => ⟨trivial, ?_⟩) fun _ _ _ => trivial
      rw [modifyFrame_frames, if_pos rfl]

theorem allocatePage_writable {F : Type} [PageStore F] (fileId : Nat) (s : BufferPoolState F cap) :
    wp (allocatePage fileId) (fun g t => g.writable = true ∧ (t.frames g.frameId).dirty = true)
      (fun _ _ => True) s := by
  rw [allocatePage_eq]
  exact request_writable _

/-! ## Runs of the pool -/

/-- One guard at a time, which writes while its frame is dirty. -/
def Careful (w : World (PageFile I) cap) (e : Event (PageFile I) cap) : Prop :=
  OneGuard w e ∧ WritesDirty w e

/-- A run of the pool leads to it. -/
def InRun (pool : BufferPoolState (PageFile I) cap) : Prop :=
  ∃ h, World.Run Careful h ⟨pool, [], false⟩

/-- The pool has turned a request down. -/
def Refuses (e : Stop RecordError) : Prop := ∃ why, e = poolError why

/-- Unless the pool turns a request down, the method continues the run. -/
abbrev Uses (m : RecordM I cap α) : Prop :=
  ∀ s, InRun s.pool → wp m (fun _ t => InRun t.pool) (fun e t => Refuses e ∨ InRun t.pool) s

omit [ReliableIo I] in
theorem World.call_ok {m : PoolM (PageFile I) cap α}
    {k : α → World (PageFile I) cap → World (PageFile I) cap × Buffer.Reply (PageFile I) cap}
    {pool t : BufferPoolState (PageFile I) cap} {a : α} {guards : List (Guard cap)}
    (hm : m pool = .ok a t) :
    World.call ⟨pool, guards, false⟩ m k = k a ⟨t, guards, false⟩ := by
  unfold World.call
  simp [hm]

/-- The event of a request takes the guard. -/
theorem InRun.take {pool t : BufferPoolState (PageFile I) cap} {g : Guard cap}
    {acquire : PoolM (PageFile I) cap (Guard cap)} {e : Event (PageFile I) cap}
    (hstep : ∀ w : World (PageFile I) cap, w.step e = w.call acquire giveGuard)
    (hasks : ∀ w : World (PageFile I) cap, w.Possible e ∧ (Met w e → Careful w e)) (h : InRun pool)
    (hg : acquire pool = .ok g t) :
    ∃ h, World.Run Careful h (⟨t, [g], false⟩ : World (PageFile I) cap) := by
  obtain ⟨h, hr⟩ := h
  have htaken := (hstep ⟨pool, [], false⟩).trans (World.call_ok hg)
  obtain ⟨hpossible, hcareful⟩ := hasks ⟨pool, [], false⟩
  have hrun := hr.step e hpossible (hcareful ⟨rfl, g, _, congrArg Prod.snd htaken⟩)
  rw [htaken] at hrun
  exact ⟨_, hrun⟩

/-- The guard is dropped. -/
theorem InRun.dropped {t : BufferPoolState (PageFile I) cap} {g : Guard cap}
    (h : ∃ h, World.Run Careful h (⟨t, [g], false⟩ : World (PageFile I) cap)) :
    InRun (t.unpinFrame g.frameId) := by
  obtain ⟨h, hr⟩ := h
  have hrun := hr.step (.drop g) List.mem_cons_self ⟨trivial, trivial⟩
  have hdropped : (World.step ⟨t, [g], false⟩ (.drop g)).1 =
      (⟨t.unpinFrame g.frameId, [], false⟩ : World (PageFile I) cap) := by
    simp [World.step]
  rw [hdropped] at hrun
  exact ⟨_, hrun⟩

/-- It wrote before that. -/
theorem InRun.closed {t : BufferPoolState (PageFile I) cap} {g : Guard cap}
    (h : ∃ h, World.Run Careful h (⟨t, [g], false⟩ : World (PageFile I) cap))
    (hw : g.writable = true) (hd : (t.frames g.frameId).dirty = true) (data : PageData) :
    InRun ((t.modifyFrame g.frameId fun frame => { frame with data }).unpinFrame g.frameId) := by
  obtain ⟨h, hr⟩ := h
  exact InRun.dropped ⟨_, hr.step (.write g data) ⟨List.mem_cons_self, hw⟩ ⟨trivial, hd⟩⟩

/-! ## Methods -/

namespace Uses

theorem pure (a : α) : Uses (Pure.pure a : RecordM I cap α) := fun _ hs => hs

theorem bind {m : RecordM I cap α} {k : α → RecordM I cap β} (hm : Uses m) (hk : ∀ a, Uses (k a)) :
    Uses (m >>= k) := by
  intro s hs
  rw [wp_bind]
  exact wp_mono (hm s hs) (fun a t ht => hk a t ht) fun _ _ => id

theorem get : Uses (MonadState.get : RecordM I cap (RecordFile I cap)) := fun _ hs => hs

theorem throw (e : Stop RecordError) : Uses (MonadExcept.throw e : RecordM I cap α) :=
  fun _ hs => .inr hs

theorem ite {c : Prop} [Decidable c] {m m' : RecordM I cap α} (hm : Uses m) (hm' : Uses m') :
    Uses (if c then m else m') := by
  split
  · exact hm
  · exact hm'

theorem check (x : Except RecordError α) : Uses (RecordFile.check x : RecordM I cap α) := by
  intro s hs
  cases x with
  | ok a => exact hs
  | error e => exact .inr hs

theorem withPage (pageId : Nat) (body : PageData → Except RecordError α) :
    Uses (RecordFile.withPage pageId body : RecordM I cap α) := by
  intro s hs
  unfold wp RecordFile.withPage
  cases hg : getPage s.fileId pageId s.pool with
  | error e pool => exact .inl ⟨e, rfl⟩
  | ok g pool =>
      have ht : InRun (pool.unpinFrame g.frameId) :=
        InRun.dropped (hs.take (e := .getPage s.fileId pageId) (fun _ => rfl)
          (fun _ => ⟨trivial, fun hm => ⟨hm, trivial⟩⟩) hg)
      cases hb : body (pool.frames g.frameId).data with
      | ok a =>
          simp only [hb]
          exact ht
      | error e =>
          simp only [hb]
          exact .inr ht

theorem withPageMut {acquire : PoolM (PageFile I) cap (Guard cap)} {e : Event (PageFile I) cap}
    (body : Nat → PageM α)
    (hstep : ∀ w : World (PageFile I) cap, w.step e = w.call acquire giveGuard)
    (hasks : ∀ w : World (PageFile I) cap, w.Possible e ∧ (Met w e → Careful w e))
    (hacquire : ∀ s, wp acquire (fun g t => g.writable = true ∧ (t.frames g.frameId).dirty = true)
      (fun _ _ => True) s) :
    Uses (RecordFile.withPageMut acquire body : RecordM I cap α) := by
  intro s hs
  rw [wp_withPageMut_iff]
  refine wp_mono (wp_run (hacquire s.pool)) ?_ fun e _ _ => .inl ⟨e, rfl⟩
  rintro g pool ⟨hg, hw, hd⟩
  have hclose : ∀ page, InRun (s.close pool g.frameId page).pool := fun page =>
    InRun.closed (hs.take hstep hasks hg) hw hd page.bytes
  exact wp_mono (wp_true _ _) (fun _ page _ => hclose page) fun _ page _ => .inr (hclose page)

theorem changePage (fileId pageId : Nat) (body : Nat → PageM α) :
    Uses (RecordFile.withPageMut (getPageMut fileId pageId) body : RecordM I cap α) :=
  withPageMut (e := .getPageMut fileId pageId) body (fun _ => rfl)
    (fun _ => ⟨trivial, fun hm => ⟨hm, trivial⟩⟩)
    fun s => getPageMut_writable fileId pageId s

theorem newPage (fileId : Nat) (body : Nat → PageM α) :
    Uses (RecordFile.withPageMut (allocatePage fileId) body : RecordM I cap α) :=
  withPageMut (e := .allocatePage fileId) body (fun _ => rfl)
    (fun _ => ⟨trivial, fun hm => ⟨hm, trivial⟩⟩)
    fun s => allocatePage_writable fileId s

theorem allocateDataPage : Uses (RecordFile.allocateDataPage : RecordM I cap Unit) := by
  unfold RecordFile.allocateDataPage
  exact get.bind fun s => newPage s.fileId allocateIn

theorem persistHeader : Uses (RecordFile.persistHeader : RecordM I cap Unit) := by
  unfold RecordFile.persistHeader
  refine get.bind fun s => ite (pure ()) ?_
  exact get.bind fun s => changePage s.fileId headerPageId _

theorem insert (data : List UInt8) : Uses (RecordFile.insert data : RecordM I cap Rid) := by
  unfold RecordFile.insert
  refine get.bind fun s => (check _).bind fun _ => get.bind fun s => ?_
  have hlast : Uses (do
      let pageId := asU32 (← MonadState.get).header.firstFreePage
      RecordFile.withPageMut (getPageMut (← MonadState.get).fileId pageId)
        fun _ => insertInto pageId data : RecordM I cap Rid) :=
    get.bind fun s => get.bind fun s => changePage s.fileId _ _
  exact ite (allocateDataPage.bind fun _ => hlast) ((pure ()).bind fun _ => hlast)

theorem readRecord (rid : Rid) : Uses (RecordFile.get rid : RecordM I cap Record) := by
  unfold RecordFile.get
  exact get.bind fun s => (check _).bind fun _ => withPage rid.pageId _

theorem update (rid : Rid) (data : List UInt8) :
    Uses (RecordFile.update rid data : RecordM I cap Unit) := by
  unfold RecordFile.update
  exact get.bind fun s => (check _).bind fun _ => get.bind fun s => (check _).bind
    fun _ => get.bind fun s =>
    changePage s.fileId rid.pageId _

theorem delete (rid : Rid) : Uses (RecordFile.delete rid : RecordM I cap Unit) := by
  unfold RecordFile.delete
  exact get.bind fun s => (check _).bind fun _ => get.bind fun s => changePage s.fileId rid.pageId _

theorem readRecordIfUsed (rid : Rid) :
    Uses (RecordFile.readRecordIfUsed rid : RecordM I cap (Option Record)) := by
  unfold RecordFile.readRecordIfUsed
  exact get.bind fun s => ite ((throw _).bind fun _ => withPage rid.pageId _)
    (withPage rid.pageId _)

theorem flush : Uses (RecordFile.flush : RecordM I cap Unit) := by
  unfold RecordFile.flush
  refine persistHeader.bind fun _ => get.bind fun s => ?_
  intro t ht
  unfold liftPool
  rw [wp_mapError, wp_zoom]
  refine wp_mono (wp_run (wp_true _ _)) ?_ fun e _ _ => .inl ⟨e, rfl⟩
  rintro _ pool ⟨hforce, -⟩
  obtain ⟨h, hr⟩ := ht
  have hrun := hr.step (.forceFile s.fileId none) trivial ⟨trivial, trivial⟩
  have hforced : World.step ⟨t.pool, [], false⟩ (.forceFile s.fileId none) =
      (⟨pool, [], false⟩, .done) :=
    World.call_ok (k := fun _ w => (w, .done)) hforce
  rw [hforced] at hrun
  exact ⟨_, hrun⟩

end Uses

/-! ## Scans -/

variable {sc : RecordScan I cap}

theorem nextFrom_uses (fuel : Nat) (hs : InRun sc.file.pool) :
    wp (nextFrom fuel) (fun _ t => InRun t.file.pool)
      (fun e t => Refuses e ∨ InRun t.file.pool) sc := by
  induction fuel generalizing sc with
  | zero => exact .inr hs
  | succ fuel ih =>
      unfold nextFrom
      simp only [wp_bind, wp_get, wp_ite, wp_pure, wp_modify, wp_zoom, (advanceCursor_file sc).1]
      split
      · exact hs
      · refine wp_mono (Uses.readRecordIfUsed _ sc.file hs) ?_ fun _ _ => id
        intro record file hf
        cases record with
        | none => exact ih hf
        | some record =>
            simp only [wp_bind]
            cases hp : sc.predicate record.data with
            | error e => exact .inr hf
            | ok b =>
                simp only [Except.mapError, wp_lift_ok, wp_ite, wp_pure]
                split
                · exact hf
                · exact ih hf

theorem drain_uses (fuel : Nat) (hs : InRun sc.file.pool) :
    wp (drain fuel) (fun _ t => InRun t.file.pool)
      (fun e t => Refuses e ∨ InRun t.file.pool) sc := by
  induction fuel generalizing sc with
  | zero => exact .inr hs
  | succ fuel ih =>
      unfold drain RecordScan.nextRecord
      simp only [wp_bind, wp_get]
      refine wp_mono (nextFrom_uses _ hs) ?_ fun _ _ => id
      intro record t ht
      cases record with
      | none => exact ht
      | some record =>
          simp only [wp_bind, wp_pure]
          exact ih ht

theorem collect_uses (hs : InRun sc.file.pool) :
    wp collect (fun _ t => InRun t.file.pool) (fun e t => Refuses e ∨ InRun t.file.pool) sc := by
  unfold collect
  simp only [wp_bind, wp_get]
  exact drain_uses _ hs

/-! ## Creating and opening -/

variable {pageFile : PageFile I} {fileId : Nat}

theorem inRun_registered (hv : LawfulPageStore.Valid pageFile) :
    wp (registerFile pageFile) (fun _ t => InRun t) (fun _ _ => True)
      (BufferPoolState.new (PageFile I) cap) := by
  refine wp_mono (wp_run (wp_true _ _)) ?_ fun _ _ _ => trivial
  rintro i pool ⟨hreg, -⟩
  have hrun := (World.Run.new (F := PageFile I) (P := (Careful : World (PageFile I) cap → _))).step
    (.registerFile pageFile) hv
    ⟨trivial, trivial⟩
  have hstep : World.step (World.new (PageFile I) cap) (.registerFile pageFile) =
      (⟨pool, [], false⟩, .registered i) :=
    World.call_ok (k := fun i w => (w, .registered i)) hreg
  rw [hstep] at hrun
  exact ⟨_, hrun⟩

theorem createPool_inRun (hv : LawfulPageStore.Valid pageFile) (recordSize : Nat) :
    wp (createPool pageFile recordSize) (fun _ t => InRun t) (fun _ _ => True)
      (BufferPoolState.new (PageFile I) cap) := by
  unfold createPool
  simp only [wp_bind, wp_mapError, wp_modify, wp_ite, wp_throw, wp_pure]
  refine wp_mono (inRun_registered hv) (fun i pool hpool => ?_) fun _ _ => id
  refine wp_mono (wp_run (wp_true _ _)) ?_ fun _ _ _ => trivial
  rintro g t ⟨hg, -⟩
  have ht : InRun (t.unpinFrame g.frameId) :=
    InRun.dropped (hpool.take (e := .allocatePage i) (fun _ => rfl)
      (fun _ => ⟨trivial, fun hm => ⟨hm, trivial⟩⟩) hg)
  split
  · trivial
  · cases RecordFileHeader.new recordSize with
    | error e => trivial
    | ok header => exact ht

theorem openPool_inRun (hv : LawfulPageStore.Valid pageFile) :
    wp (openPool pageFile) (fun _ t => InRun t) (fun _ _ => True)
      (BufferPoolState.new (PageFile I) cap) := by
  unfold openPool
  simp only [wp_bind, wp_mapError, wp_modify, wp_get]
  refine wp_mono (inRun_registered hv) (fun i pool hpool => ?_) fun _ _ => id
  refine wp_mono (wp_run (wp_true _ _)) ?_ fun _ _ _ => trivial
  rintro g t ⟨hg, -⟩
  have ht : InRun (t.unpinFrame g.frameId) :=
    InRun.dropped (hpool.take (e := .getPage i headerPageId) (fun _ => rfl)
      (fun _ => ⟨trivial, fun hm => ⟨hm, trivial⟩⟩) hg)
  cases RecordFileHeader.decode (((t.frames g.frameId).data).read 0 recordFileHeaderSize) with
  | error e => trivial
  | ok header =>
      simp only [Except.mapError, wp_lift_ok]
      cases checked 32 (header.numPages + 1) with
      | none => trivial
      | some expectedTotalPages =>
          simp only [wp_ite, wp_pure]
          split
          · trivial
          · exact ht

theorem create_inRun (hv : LawfulPageStore.Valid pageFile) {recordSize : Nat}
    {file : RecordFile I cap} (hc : RecordFile.create pageFile cap recordSize = .ok file) :
    InRun file.pool := by
  unfold RecordFile.create at hc
  cases hp : createPool pageFile recordSize (BufferPoolState.new (PageFile I) cap) with
  | error e pool =>
      rw [hp] at hc
      cases hc
  | ok r pool =>
      rw [hp] at hc
      have hpool := (wp_ok hp (createPool_inRun hv recordSize) :)
      cases hh : RecordFile.persistHeader
        { pool, fileId := r.1, header := r.2, headerDirty := true } with
      | error e t =>
          simp only [hh] at hc
          cases hc
      | ok _ t =>
          simp only [hh] at hc
          cases hc
          exact (wp_ok hh (Uses.persistHeader _ hpool) :)

theorem open_inRun (hv : LawfulPageStore.Valid pageFile) {file : RecordFile I cap}
    (ho : RecordFile.open pageFile cap = .ok file) : InRun file.pool := by
  unfold RecordFile.open at ho
  split at ho
  next => cases ho
  next =>
    cases hp : openPool pageFile (BufferPoolState.new (PageFile I) cap) with
    | error e pool =>
        rw [hp] at ho
        cases ho
    | ok r pool =>
        rw [hp] at ho
        cases ho
        exact (wp_ok hp (openPool_inRun hv) :)

/-! ## Steps -/

variable {s : Opened I} {hist : List (Op × Reply)} {recordSize : Nat} {pages : Nat → PageData}
  {chain : List Nat}

theorem not_refuses_of_refused {rid : Rid} {e : Stop RecordError} (h : Refused rid e) :
    ¬ Refuses e := by
  rintro ⟨why, rfl⟩
  rcases h with h | h
  all_goals cases why <;> cases h

/-- No request of a record file that answers as a map is turned down by the pool. -/
theorem not_refuses_of_answers {e : Stop RecordError} {op : Op}
    (h : Answers recordSize hist (.failed e) op) : ¬ Refuses e := by
  have hmismatch : ∀ n m, Reply.failed e = .failed (.error (.sizeMismatch n m)) → ¬ Refuses e := by
    rintro n m he ⟨why, rfl⟩
    cases why <;> cases he
  have hlive : ∀ rid ok, (∀ data, ok data ≠ Reply.failed e) → OnLive hist rid (.failed e) ok →
      ¬ Refuses e := by
    intro rid ok hok hon
    unfold OnLive at hon
    cases hs : stored hist rid with
    | none =>
        rw [hs] at hon
        obtain ⟨_, he, href⟩ := hon
        cases he
        exact not_refuses_of_refused href
    | some data =>
        rw [hs] at hon
        exact absurd hon.symm (hok data)
  cases op with
  | insert data =>
      rw [Answers] at h
      split at h
      · obtain ⟨rid, he, -⟩ := h
        cases he
      · exact hmismatch _ _ h
  | get rid => exact hlive rid _ (fun _ he => by cases he) h
  | update rid data =>
      rw [Answers] at h
      split at h
      · exact hlive rid _ (fun _ he => by cases he) h
      · exact hmismatch _ _ h
  | delete rid => exact hlive rid _ (fun _ he => by cases he) h
  | scan =>
      obtain ⟨records, he, -⟩ := h
      cases he
  | flush => cases h
  | reopen cap pos => cases h

/-- Unless its request was turned down, an operation continues the run of the pool. -/
def Proceeds (t : Opened I) (r : Reply) : Prop :=
  (∃ e, r = .failed e ∧ Refuses e) ∨ InRun t.file.pool

theorem reply_proceeds {m : RecordM I s.cap α} (hm : Uses m) (hs : InRun s.file.pool)
    (answer : α → Reply) :
    Proceeds (s.reply m answer).1 (s.reply m answer).2 := by
  refine reply_of_wp (R := Proceeds) (hm s.file hs) (fun _ _ => .inr) ?_
  rintro e file (hr | hf)
  · exact .inl ⟨e, rfl, hr⟩
  · exact .inr hf

theorem step_proceeds (hi : Implements s recordSize hist pages chain) (hs : InRun s.file.pool)
    (op : Op) :
    Proceeds (step s op).1 (step s op).2 := by
  cases op with
  | insert data => exact reply_proceeds (Uses.insert data) hs _
  | get rid => exact reply_proceeds (Uses.readRecord rid) hs _
  | update rid data => exact reply_proceeds (Uses.update rid data) hs _
  | delete rid => exact reply_proceeds (Uses.delete rid) hs _
  | flush => exact reply_proceeds Uses.flush hs _
  | scan =>
      have hw := collect_uses (show InRun s.file.scan.file.pool from hs)
      show Proceeds s.scan.1 s.scan.2
      unfold Opened.scan
      cases hc : RecordScan.collect s.file.scan with
      | ok records t => exact .inr (wp_ok hc hw :)
      | error e t =>
          rcases (wp_error hc hw :) with hr | hf
          · exact .inl ⟨e, rfl, hr⟩
          · exact .inr hf
  | reopen cap pos =>
      obtain ⟨io, pages', hdrop, -, hsaved⟩ := drop_spec hi.holds
      obtain ⟨pageFile, io', hopen, hplain⟩ := exists_ok_of_wp (hsaved.disk io rfl)
      show Proceeds (s.reopen cap).1 (s.reopen cap).2
      unfold Opened.reopen
      simp only [hdrop, hopen]
      cases ho : RecordFile.open pageFile cap with
      | error e =>
          simp only
          exact .inr hs
      | ok file =>
          simp only
          exact .inr (open_inRun hplain.valid ho)

/-! ## Contents -/

/-- The pool determines the data of every page of its files. -/
theorem Backed.unique {pool : BufferPoolState (PageFile I) cap}
    {mem mem' : BufferKey → Option PageData} {key : BufferKey} {guards : List (Guard cap)}
    (hi : Inv pool guards) (h : Backed pool mem) (h' : Backed pool mem')
    (hf : pool.files key.fileId ≠ none) : mem key = mem' key := by
  cases hk : pool.pageTable key with
  | some f =>
      have hkey := (hi.table.mem_iff key f).mp hk
      rw [h.cached f key hkey, h'.cached f key hkey]
  | none =>
      obtain ⟨file, hfile⟩ := Option.ne_none_iff_exists'.mp hf
      have hnot : ∀ f, pool.pageTable ⟨key.fileId, key.pageId⟩ = some f →
          (pool.frames f).dirty = false := by
        intro f hf
        rw [hk] at hf
        cases hf
      exact (h.stored _ file hfile _ hnot).trans (h'.stored _ file hfile _ hnot).symm

end Redbase.Record
