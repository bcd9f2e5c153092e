import Wacs.HttpRequest
import Wacs.ListedTables

/-! A request to the HTTP server, address by address. `lsLog`, `lsLastProbe` and `macsPerTime` run one transaction for
each `sa`, and other programs commit between them, so that every scan finds a store of its own. -/

namespace Wacs

open OrderedCursor OrderedPages

namespace Http

/-- What a request has gathered. -/
inductive Gathering where
  | listing (scan : Listed) (onLog : OnLog HttpReqEnv) (env : HttpReqEnv)
  | histogram (h : HistogramMacsPerTime)

namespace Gathering

/-- Where a request begins; one for a file gathers nothing. -/
def begin (server : HttpServer) (params : RequestParams) : Option Gathering :=
  match params.requestType with
  | .log => some (.listing .log onReqLog (reqEnv server.count params.offset params.count))
  | .lastLog => some (.listing .lastProbe onReqLog (reqEnv server.count params.offset params.count))
  | .logCount => some (.listing .log onReqLogCount (reqEnv server.count params.offset params.count))
  | .lastLogCount => some (.listing .lastProbe onReqLogCount (reqEnv server.count params.offset params.count))
  | .macsPerTime => some (.histogram (HistogramMacsPerTime.make params.start params.finish params.step))
  | .unknown => none

def scanned (params : RequestParams) (g : Gathering) (text : Bytes) (found : Store × Memory) : Gathering :=
  match g with
  | .listing scan onLog env =>
      .listing scan onLog (lsFilter scan params.start params.finish onLog found.1 env (saFilter text, found.2))
  | .histogram h =>
      .histogram (listOnce .log params.start params.finish onLogHistogram found.1 h (saFilter text, found.2)).2

def gather (params : RequestParams) (g : Gathering) (sa : List Bytes) (found : List (Store × Memory)) : Gathering :=
  (sa.zip found).foldl (fun g x => g.scanned params x.1 x.2) g

/-- The answer when the database cannot be opened. -/
def unopened : Gathering → Answer
  | .listing .. => dataAnswer []
  | .histogram _ => dataAnswer (errorText ++ decimal ERRCODE_LMDB_OPEN)

/-- The answer when it has been closed, or could not be. -/
def answer (closes : Bool) : Gathering → Answer
  | .listing _ _ env => dataAnswer (if !closes then [] else response env.retval)
  | .histogram h => dataAnswer (if !closes then errorText ++ decimal ERRCODE_LMDB_CLOSE else h.toJSON)

end Gathering

/-- The answer to a url that is none of the five paths. -/
def fileAnswer (server : HttpServer) (url : Bytes) : Answer :=
  match processFile server.fs (buildFileName server.realpath server.rootPath (some url)) with
  | some name => .file name
  | none => .notFound

/-- A request answered over what the scans for its addresses find, one after the other. -/
def answerOver (server : HttpServer) (opens closes : Bool) (now : Int) (url : Bytes)
    (args : List (Option Bytes × Option Bytes)) (found : List (Store × Memory)) : Answer :=
  let params := RequestParams.make now url args
  match Gathering.begin server params with
  | none => fileAnswer server url
  | some g => if !opens then g.unopened else (g.gather params params.sa found).answer closes

/-! ### One store for all addresses -/

theorem zip_range {β : Type} (sa : List Bytes) (found : Nat → β) :
    sa.zip ((List.range sa.length).map found) = sa.zipIdx.map fun x => (x.1, found x.2) := by
  rw [List.zip_map_right, List.zipIdx_eq_zip_range', List.range_eq_range']
  rfl

section Still

variable (params : RequestParams) (s : Store) (memory : Nat → Memory)

end Still

end Http

end Wacs
