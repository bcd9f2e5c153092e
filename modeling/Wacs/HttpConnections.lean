import Wacs.HttpPages

/-! `http-server.cpp` on its connections. The library calls `httpHandler` for a request once when it has read the head
of it, once for each piece of its body, and once more at the end; connections are served by threads of their own,
while other programs write to the database. A thread that answers runs one transaction after the other, and the others
go on between them. -/

namespace Wacs.Http

/-- "GET" -/
def GET : Bytes := [71, 69, 84]

/-- A request with the sizes of the pieces its body comes in. -/
structure Request where
  method : Bytes
  url : Bytes
  args : List (Option Bytes × Option Bytes)
  upload : List Nat
  pieces : ∀ n ∈ upload, n ≠ 0

/-- What a turn of a connection finds: whether the database can be opened and closed, what is in it, the memory of a
scan and the clock; and at which time of the history that is. -/
structure Moment where
  opens : Bool
  closes : Bool
  store : Store
  memory : Memory
  now : Int
  time : Nat

def Moment.found (m : Moment) : Store × Memory := (m.store, m.memory)

/-- How a call of the handler begins: with `MHD_NO`, with `MHD_YES` and nothing queued, or on its way to the answer. -/
inductive Reply where
  | no
  | yes
  | answers

/-- The tests of `httpHandler`; `ptr` tells whether the pointer of the request is that of `dummy`. -/
def reply (r : Request) (uploadDataSize : Nat) (ptr : Bool) : Reply :=
  if r.method ≠ GET then .no
  else if !ptr then .yes
  else if uploadDataSize ≠ 0 then .no
  else .answers

/-- Where a connection is: before the calls of these sizes for its first request, between two transactions for it, or
closed. -/
inductive Phase where
  | calls (sizes : List Nat) (ptr : Bool)
  | gathering (params : RequestParams) (left : List Bytes) (g : Gathering)
  | closed

/-- A connection, with the requests that have not been answered and the answers given. -/
structure Conn where
  waiting : List Request
  phase : Phase
  answered : List Answer

/-- Between two requests: the calls for the first of those left are to come. -/
def Conn.between (requests : List Request) (answered : List Answer) : Conn :=
  ⟨requests, .calls ((requests.head?.map fun r => 0 :: (r.upload ++ [0])).getD []) false, answered⟩

/-- The handler from the parameters on, up to the first transaction. It clears the pointer of the request. -/
def Conn.starts (server : HttpServer) (c : Conn) (r : Request) (requests : List Request) (m : Moment) : Conn :=
  let params := RequestParams.make m.now r.url r.args
  match Gathering.begin server params with
  | none => .between requests (c.answered ++ [fileAnswer server r.url])
  | some g =>
      if !m.opens then .between requests (c.answered ++ [g.unopened])
      else { c with phase := .gathering params params.sa g }

/-- The next step on a connection. A call that refuses closes it. -/
def Conn.turn (server : HttpServer) (c : Conn) (m : Moment) : Conn :=
  match c.waiting, c.phase with
  | r :: requests, .calls (size :: sizes) ptr =>
      match reply r size ptr with
      | .no => { c with phase := .closed }
      | .yes => { c with phase := .calls sizes true }
      | .answers => c.starts server r requests m
  | _ :: _, .gathering params (text :: left) g =>
      { c with phase := .gathering params left (g.scanned params text m.found) }
  | _ :: requests, .gathering _ [] g => .between requests (c.answered ++ [g.answer m.closes])
  | _, _ => c

/-- The server at work: the store, the number of things that have happened, and the connections. -/
structure Site where
  store : Store
  time : Nat
  conns : Nat → Conn

/-- A call on the store by some program, or the next step of a connection. -/
inductive Happening : Type 1 where
  | call (c : Step)
  | turn (i : Nat) (opens closes : Bool) (memory : Memory) (now : Int)

def Site.step (server : HttpServer) (w : Site) : Happening → Site
  | .call c => { w with store := (perform w.store c).2, time := w.time + 1 }
  | .turn i opens closes memory now =>
      let c := (w.conns i).turn server ⟨opens, closes, w.store, memory, now, w.time⟩
      { w with conns := Function.update w.conns i c, time := w.time + 1 }

def Site.after (server : HttpServer) (w : Site) (happenings : List Happening) : Site :=
  happenings.foldl (step server) w

/-! ### One connection -/

/-- A request that is answered. -/
def Request.Plain (r : Request) : Prop := r.method = GET ∧ r.upload = []

instance : DecidablePred Request.Plain := fun r =>
  inferInstanceAs (Decidable (r.method = GET ∧ r.upload = []))

/-- The turns it takes to answer a request after the two calls of the handler: one for each address, and one to close
the database. -/
def Request.turns (server : HttpServer) (r : Request) (m : Moment) : Nat :=
  let params := RequestParams.make m.now r.url r.args
  if (Gathering.begin server params).isSome && m.opens then params.sa.length + 1 else 0

/-- The answer to a request whose second call finds `m`, and the turns after it these moments. -/
def Request.answerFrom (server : HttpServer) (r : Request) (m : Moment) (moments : List Moment) : Answer :=
  answerOver server m.opens (moments.getLast?.elim true Moment.closes) m.now r.url r.args (moments.map Moment.found)

/-- The answers on a connection whose turns find these moments. -/
def served (server : HttpServer) : List Request → List Moment → List Answer
  | r :: requests, _ :: m :: moments =>
      if r.Plain then
        if moments.length < r.turns server m then []
        else r.answerFrom server m (moments.take (r.turns server m)) ::
          served server requests (moments.drop (r.turns server m))
      else []
  | _, _ => []

/-- What a connection is like after its turns: these answers, and closed or not. -/
def Conn.Shows (c : Conn) (answers : List Answer) (closed : Bool) : Prop :=
  c.answered = answers ∧ (c.phase = .closed ↔ closed = true)

section Connection

variable (server : HttpServer)

end Connection

/-! ### All connections -/

section All

variable (server : HttpServer)

end All

/-- The server before any connection has had a turn. -/
def Site.opened (s : Store) (requests : Nat → List Request) : Site := ⟨s, 0, fun i => .between (requests i) []⟩

/-- The keys that calls and scans build have this alignment byte. -/
def Happening.Padded (pad : UInt8) : Happening → Prop
  | .call c => c.2.pad.key = pad
  | .turn _ _ _ memory _ => memory.pad.key = pad

section Padded

variable {pad : UInt8} {happenings : List Happening} (hpadded : ∀ x ∈ happenings, x.Padded pad)
include hpadded

end Padded

end Wacs.Http
