import Wacs.OrderedMap

/-! A transactional store over ordered maps, with one write transaction at a time behind one handle
variable, and computations that ask an oracle for the status of each call they make. A transaction
sees its own pending writes; a commit of status zero publishes them, any other end discards them.
The trace records what is done to which handle. -/

/-- What is done to a transaction handle. -/
inductive TxnEvent where
  | begun (handle : Nat)
  | used (handle : Nat)
  | ended (handle : Nat)
  deriving DecidableEq

/-- The committed map, the view of the live transaction (`none` once its handle has ended), the handle
last begun, whether the environment is open, and the history of the handles. -/
structure TxnStore (κ ν : Type) [LinearOrder κ] where
  committed : OrderedMap κ ν
  pending : Option (OrderedMap κ ν)
  handle : Nat
  opened : Bool
  trace : List TxnEvent

namespace TxnStore

variable {κ ν : Type} [LinearOrder κ]

/-- An open store without a transaction. -/
def idle (m : OrderedMap κ ν) : TxnStore κ ν := ⟨m, none, 0, true, []⟩

def note (s : TxnStore κ ν) (event : Nat → TxnEvent) : TxnStore κ ν :=
  { s with trace := s.trace ++ [event s.handle] }

/-- Begins a transaction, on a status of zero. -/
def begin (status : Int) (s : TxnStore κ ν) : TxnStore κ ν :=
  if status = 0 then
    { s with
      pending := some s.committed, handle := s.handle + 1, trace := s.trace ++ [.begun (s.handle + 1)] }
  else s

def put (k : κ) (v : ν) (status : Int) (s : TxnStore κ ν) : TxnStore κ ν :=
  if status = 0 then { s.note .used with pending := s.pending.map fun m => m.put k v } else s.note .used

/-- Deletion of a key, with a status of its own when the key is not there. -/
def del (absent : Int) (k : κ) (status : Int) (s : TxnStore κ ν) : Int × TxnStore κ ν :=
  if status = 0 then
    match s.pending with
    | none => (0, s.note .used)
    | some m =>
        if (m.get k).isSome then (0, { s.note .used with pending := some (m.del k) })
        else (absent, s.note .used)
  else (status, s.note .used)

def commit (status : Int) (s : TxnStore κ ν) : TxnStore κ ν :=
  { s.note .ended with
    committed := if status = 0 then s.pending.getD s.committed else s.committed, pending := none }

def abort (s : TxnStore κ ν) : TxnStore κ ν := { s.note .ended with pending := none }

/-- The map the live transaction sees. -/
def view (s : TxnStore κ ν) : OrderedMap κ ν := s.pending.getD s.committed

section Fields

variable (s : TxnStore κ ν) (status absent : Int) (k : κ) (v : ν)

@[simp] theorem idle_committed (m : OrderedMap κ ν) : (idle m).committed = m := rfl

@[simp] theorem idle_pending (m : OrderedMap κ ν) : (idle m).pending = none := rfl

@[simp] theorem note_committed (event : Nat → TxnEvent) : (s.note event).committed = s.committed := rfl

@[simp] theorem note_pending (event : Nat → TxnEvent) : (s.note event).pending = s.pending := rfl

@[simp] theorem begin_committed : (s.begin status).committed = s.committed := by
  unfold begin
  split_ifs <;> rfl

@[simp] theorem begin_pending :
    (s.begin status).pending = if status = 0 then some s.committed else s.pending := by
  unfold begin
  split_ifs <;> rfl

@[simp] theorem put_committed : (s.put k v status).committed = s.committed := by
  unfold put
  split_ifs <;> rfl

@[simp] theorem put_pending :
    (s.put k v status).pending = if status = 0 then s.pending.map fun m => m.put k v else s.pending := by
  unfold put
  split_ifs <;> rfl

@[simp] theorem del_committed : (s.del absent k status).2.committed = s.committed := by
  unfold del
  split_ifs
  · split
    · rfl
    · split_ifs <;> rfl
  · rfl

theorem del_present {m : OrderedMap κ ν} (h : s.pending = some m) (hk : (m.get k).isSome) :
    s.del absent k 0 = (0, { s.note .used with pending := some (m.del k) }) := by
  rw [del, if_pos rfl, h]
  exact if_pos hk

theorem del_absent {m : OrderedMap κ ν} (h : s.pending = some m) (hk : ¬(m.get k).isSome) :
    s.del absent k 0 = (absent, s.note .used) := by
  rw [del, if_pos rfl, h]
  exact if_neg hk

@[simp] theorem commit_committed : (s.commit status).committed =
    if status = 0 then s.pending.getD s.committed else s.committed := rfl

@[simp] theorem commit_pending : (s.commit status).pending = none := rfl

@[simp] theorem abort_committed : s.abort.committed = s.committed := rfl

@[simp] theorem abort_pending : s.abort.pending = none := rfl

end Fields

end TxnStore

/-- Computations over a state that ask an oracle for the outcome of each labelled call: the operations they make,
each chosen by the results of those before. -/
inductive OracleM (ι σ α : Type) : Type 1 where
  | done (r : α)
  | op {β : Type} (act : (ι → Int) → σ → β × σ) (next : β → OracleM ι σ α)

namespace OracleM

variable {ι σ α β : Type}

protected def bind : OracleM ι σ α → (α → OracleM ι σ β) → OracleM ι σ β
  | done r, f => f r
  | op act next, f => op act fun r => (next r).bind f

instance : Monad (OracleM ι σ) where
  pure := done
  bind := OracleM.bind

/-- A call on the state whose outcome the oracle decides. -/
def call (c : ι) (act : Int → σ → α × σ) : OracleM ι σ α := op (fun answers s => act (answers c) s) done

/-- A call that returns the status the oracle gives it. -/
def status (c : ι) (act : Int → σ → σ) : OracleM ι σ Int := call c fun r s => (r, act r s)

def modify (act : σ → σ) : OracleM ι σ Unit := op (fun _ s => ((), act s)) done

def run : OracleM ι σ α → (ι → Int) → σ → α × σ
  | done r, _, s => (r, s)
  | op act next, answers, s => (next (act answers s).1).run answers (act answers s).2

section Run

variable (answers : ι → Int) (s : σ)

@[simp] theorem run_pure (a : α) : (pure a : OracleM ι σ α).run answers s = (a, s) := rfl

theorem run_bind (x : OracleM ι σ α) (f : α → OracleM ι σ β) :
    (x >>= f).run answers s = (f (x.run answers s).1).run answers (x.run answers s).2 := by
  induction x generalizing s with
  | done r => rfl
  | op act next ih => exact ih (act answers s).1 (act answers s).2

theorem run_bind_of (x : OracleM ι σ α) (f : α → OracleM ι σ β) {a : α} {s' : σ}
    (h : x.run answers s = (a, s')) : (x >>= f).run answers s = (f a).run answers s' := by
  rw [run_bind, h]

@[simp] theorem run_status (c : ι) (act : Int → σ → σ) :
    (status c act).run answers s = (answers c, act (answers c) s) := rfl

@[simp] theorem run_status_bind (c : ι) (act : Int → σ → σ) (f : Int → OracleM ι σ β) :
    (status c act >>= f).run answers s = (f (answers c)).run answers (act (answers c) s) := rfl

@[simp] theorem run_modify_bind (act : σ → σ) (f : Unit → OracleM ι σ β) :
    (modify act >>= f).run answers s = (f ()).run answers (act s) := rfl

@[simp] theorem run_ite (p : Prop) [Decidable p] (x y : OracleM ι σ α) :
    (if p then x else y).run answers s = if p then x.run answers s else y.run answers s := by
  split_ifs <;> rfl

end Run

end OracleM
