import Redbase.Page.Store

/-!
# Runs of a page file

A client's operations on one page file, what each of them answers, and the histories of the runs
that start with `PageFile::create` and keep the page count within 31 bits.
-/

namespace Redbase.Page

open Bytes PageFile

/-- One operation; `change` is what is done through the guard before it is dropped. `reopen` drops
the file and opens it again. -/
inductive Op where
  | allocate (change : PageData → PageData)
  | read (pageId : Nat)
  | write (pageId : Nat) (change : PageData → PageData)
  | dispose (pageId : Nat)
  | flush
  | reopen

/-- What an operation answers; a guard shows the data bytes of its page. -/
inductive Reply where
  | allocated (pageId : Nat) (data : PageData)
  | shown (data : PageData)
  | done
  | failed (error : PageStoreError)
  deriving DecidableEq

section Step

variable {I : Type} [PageIo I]

/-- The guard's changes are made, then the guard is dropped. -/
def guardReply (change : PageData → PageData) (reply : PageGuard → Reply) :
    EStateM.Result PageStoreError (PageFile I) PageGuard → PageFile I × Reply
  | .ok g t => (t.setPageData (change g.data), reply g)
  | .error e t => (t, .failed e)

def unitReply : EStateM.Result PageStoreError (PageFile I) Unit → PageFile I × Reply
  | .ok _ t => (t, .done)
  | .error e t => (t, .failed e)

/-- An open that fails leaves no file; the old value stands in for it. -/
def step (s : PageFile I) : Op → PageFile I × Reply
  | .allocate change => guardReply change (fun g => .allocated g.pageId g.data) (allocatePage s)
  | .read p =>
      match readPage p s with
      | .ok g t => (t, .shown g.data)
      | .error e t => (t, .failed e)
  | .write p change => guardReply change (fun g => .shown g.data) (writePage p s)
  | .dispose p => unitReply (disposePage p s)
  | .flush => unitReply (flush s)
  | .reopen =>
      match PageFile.open s.drop with
      | .ok t _ => (t, .done)
      | .error e _ => (s, .failed e)

/-- The runs on a file created on `io`, with their history, newest first. -/
inductive Run (io : I) : List (Op × Reply) → PageFile I → Prop
  | create {s : PageFile I} : create io = .ok () s → Run io [] s
  | step {h : List (Op × Reply)} {s : PageFile I} (op : Op) : Run io h s →
      (step s op).1.header.numPages ≤ 2 ^ 31 → Run io ((op, (step s op).2) :: h) (step s op).1

/-- The page files that a client can have: opened or created, and used in any way since. -/
inductive Reachable : PageFile I → Prop
  | «open» {io io' : I} {s : PageFile I} : PageFile.open io = .ok s io' → Reachable s
  | create {io : I} {s : PageFile I} : create io = .ok () s → Reachable s
  | step {s : PageFile I} (op : Op) : Reachable s → Reachable (step s op).1

end Step

/-! ## What a history says -/

/-- The bytes the last guard left on page `p` since it was last allocated; `none` when `p` is not
allocated or was disposed of. -/
def lastData : List (Op × Reply) → Nat → Option PageData
  | [], _ => none
  | (.allocate change, .allocated q d) :: h, p => if p = q then some (change d) else lastData h p
  | (.write q change, .shown d) :: h, p => if p = q then some (change d) else lastData h p
  | (.dispose q, .done) :: h, p => if p = q then none else lastData h p
  | _ :: h, p => lastData h p

/-- The pages disposed of and not handed out again, last disposed first. -/
def disposed : List (Op × Reply) → List Nat
  | [] => []
  | (.dispose q, .done) :: h => q :: disposed h
  | (.allocate _, .allocated _ _) :: h => (disposed h).tail
  | _ :: h => disposed h

/-- What a store of pages answers to `op` after the history `h`. -/
def Answers (h : List (Op × Reply)) (r : Reply) : Op → Prop
  | .allocate _ => ∃ p, r = .allocated p (Block.zero _) ∧ lastData h p = none
  | .read p | .write p _ => r = match lastData h p with
      | some d => .shown d
      | none => .failed (.invalidPageId p)
  | .dispose p => match lastData h p with
      | some _ => r = .done
      | none => r = .failed (.pageAlreadyFree p) ∨ r = .failed (.invalidPageId p)
  | .flush | .reopen => r = .done

/-! ## The store as a client sees it -/

namespace Store

/-- The store's answer to an operation and the store after it. -/
def step (st : Store) : Op → Store × Reply
  | .allocate change =>
      (st.allocate.write st.nextId (change (Block.zero _)), .allocated st.nextId (Block.zero _))
  | .read p => (st, if st.InUse p then .shown (st.data p) else .failed (.invalidPageId p))
  | .write p change =>
      if st.InUse p then (st.write p (change (st.data p)), .shown (st.data p))
      else (st, .failed (.invalidPageId p))
  | .dispose p =>
      if h : st.InUse p then (st.dispose p h, .done)
      else (st, .failed (if p < st.numPages then .pageAlreadyFree p else .invalidPageId p))
  | .flush | .reopen => (st, .done)

/-- The history says which pages are in use, with which data, and the order of the free ones. -/
structure Recorded (st : Store) (h : List (Op × Reply)) : Prop where
  data : ∀ p, lastData h p = if st.InUse p then some (st.data p) else none
  free : disposed h = st.free

theorem recorded_empty : Recorded empty [] := ⟨fun p => by simp [lastData, InUse, empty], rfl⟩

theorem Recorded.step {st : Store} {h : List (Op × Reply)} (hr : Recorded st h) (op : Op) :
    Recorded (st.step op).1 ((op, (st.step op).2) :: h) := by
  cases op with
  | allocate change =>
      refine ⟨fun p => ?_, by simp [Store.step, disposed, hr.free, write]⟩
      have hn := st.not_inUse_nextId
      simp only [Store.step, lastData, inUse_write, inUse_allocate, write_data,
        allocate_data, hr.data]
      rcases eq_or_ne p st.nextId with rfl | hp
      · simp
      · simp [hp]
  | read p => exact ⟨hr.data, hr.free⟩
  | write p change =>
      by_cases hu : st.InUse p
      · simp only [Store.step, if_pos hu]
        refine ⟨fun q => ?_, hr.free⟩
        simp only [lastData, inUse_write, write_data, hr.data]
        rcases eq_or_ne q p with rfl | hq
        · simp [hu]
        · simp [hq]
      · simp only [Store.step, if_neg hu]
        exact ⟨hr.data, hr.free⟩
  | dispose p =>
      by_cases hu : st.InUse p
      · simp only [Store.step, dif_pos hu]
        refine ⟨fun q => ?_, by simp [disposed, hr.free]⟩
        simp only [lastData, inUse_dispose, dispose_data, hr.data]
        rcases eq_or_ne q p with rfl | hq
        · simp
        · simp [hq]
      · simp only [Store.step, dif_neg hu]
        exact ⟨hr.data, hr.free⟩
  | flush => exact ⟨hr.data, hr.free⟩
  | reopen => exact ⟨hr.data, hr.free⟩

theorem Recorded.answers {st : Store} {h : List (Op × Reply)} (hr : Recorded st h) (op : Op) :
    Answers h (st.step op).2 op := by
  cases op with
  | allocate change =>
      exact ⟨st.nextId, rfl, by rw [hr.data, if_neg st.not_inUse_nextId]⟩
  | read p => by_cases hu : st.InUse p <;> simp [Answers, Store.step, hr.data, hu]
  | write p change => by_cases hu : st.InUse p <;> simp [Answers, Store.step, hr.data, hu]
  | dispose p =>
      by_cases hu : st.InUse p
      · simp [Answers, Store.step, hr.data, hu]
      · rcases Nat.lt_or_ge p st.numPages with hp | hp <;>
          simp [Answers, Store.step, hr.data, hu, hp, Nat.not_lt.mpr]
  | flush => rfl
  | reopen => rfl

end Store

end Redbase.Page
