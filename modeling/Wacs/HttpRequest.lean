import Wacs.DumpMac
import Wacs.HistogramTotal
import Wacs.HttpCounts
import Wacs.HttpFiles

/-! The requests of the HTTP server: the path names what is asked for, the arguments say of which records, and
the answer is made of one listing, a histogram or a file. -/

namespace Wacs

open OrderedCursor OrderedPages TextNumeral TextJson TextScan

/-! ### Parameters -/

inductive RequestType where
  | log
  | lastLog
  | logCount
  | lastLogCount
  | macsPerTime
  | unknown
  deriving DecidableEq

/-- What a request for `/log` or `/last` lists. -/
def Listed.requestType : Listed → RequestType
  | .log => .log
  | .lastProbe => .lastLog

def Listed.path : Listed → Bytes
  | .log => [47, 108, 111, 103]
  | .lastProbe => [47, 108, 97, 115, 116]

def PATHS : List (Bytes × RequestType) :=
  [([47, 108, 111, 103], .log), ([47, 108, 97, 115, 116], .lastLog),
    ([47, 108, 111, 103, 45, 99, 111, 117, 110, 116], .logCount),
    ([47, 108, 97, 115, 116, 45, 99, 111, 117, 110, 116], .lastLogCount),
    ([47, 109, 97, 99, 115, 45, 112, 101, 114, 45, 116, 105, 109, 101], .macsPerTime)]

/-- `start` and `finish` are 64-bit times, `offset`, `count` and `step` are `int`s. -/
structure RequestParams where
  requestType : RequestType
  start : Int
  finish : Int
  sa : List Bytes
  offset : Int
  count : Int
  step : Int

namespace RequestParams

def parseRequestType (url : Bytes) : RequestType :=
  ((PATHS.find? fun path => path.1 = cString url).map Prod.snd).getD .unknown

/-- `callbackArg`, for one argument of the request; a key or a value may be NULL. -/
def callbackArg (rp : RequestParams) (arg : Option Bytes × Option Bytes) : RequestParams :=
  match arg with
  | (some key, some value) =>
      let key := cString key
      let value := cString value
      if key = [115] then { rp with start := strtol value }
      else if key = [102] then { rp with finish := strtol value }
      else if key = [115, 97] then { rp with sa := rp.sa ++ [value] }
      else if key = [111] then { rp with offset := int32 (strtol value) }
      else if key = [99] then { rp with count := int32 (strtol value) }
      else if key = [115, 116, 101, 112] then { rp with step := int32 (strtol value) }
      else rp
  | _ => rp

/-- The parameters of a request; `now` is the clock. -/
def make (now : Int) (url : Bytes) (args : List (Option Bytes × Option Bytes)) : RequestParams :=
  let rp := args.foldl callbackArg ⟨parseRequestType url, 0, now, [], 0, 0, 1⟩
  if rp.sa.length = 0 then { rp with sa := rp.sa ++ [[]] } else rp

end RequestParams

/-! ### The handler -/

namespace Http

theorem saFilter_readable (text : Bytes) : clampSa (strtomacaddress text).1 ≤
    ((if (strtomacaddress text).1 ≤ 0 then none else some (strtomacaddress text).2.val).getD []).length := by
  by_cases hnone : (strtomacaddress text).1 ≤ 0
  · rw [clampSa, if_neg (by omega), if_pos hnone]
    exact Nat.zero_le _
  · rw [if_neg hnone, Option.getD_some, (strtomacaddress text).2.property]
    unfold clampSa
    split_ifs <;> omega

/-- The arguments `sa` and `saSize` made of a text; where no byte is read there is no address. -/
def saFilter (text : Bytes) : Filter where
  sa := if (strtomacaddress text).1 ≤ 0 then none else some (strtomacaddress text).2.val
  saSize := (strtomacaddress text).1
  readable := saFilter_readable text

/-- The filters of a request, each with the memory its scan finds. -/
def filters (params : RequestParams) (memory : Nat → Memory) : List (Filter × Memory) :=
  params.sa.zipIdx.map fun x => (saFilter x.1, memory x.2)

end Http

/-- The configuration of the server, and the file systems it looks into. -/
structure HttpServer where
  count : Int
  rootPath : Bytes
  realpath : RealPath
  fs : FileSystem

/-- The database as a request finds it: whether it can be opened, and closed again, and what is in it. -/
structure Database where
  opens : Bool
  closes : Bool
  store : Store

/-- What is answered: data, or the file of this name, or the 404 page. -/
inductive Answer where
  | data (body : Bytes)
  | file (name : Bytes)
  | notFound

/-- "500 Internal error" -/
def MSG500 : Bytes := [53, 48, 48, 32, 73, 110, 116, 101, 114, 110, 97, 108, 32, 101, 114, 114, 111, 114]

/-- "Error :" -/
def errorText : Bytes := [69, 114, 114, 111, 114, 32, 58]

section Handler

variable (server : HttpServer) (db : Database) (memory : Nat → Memory) (params : RequestParams)

/-- `lsLog` and `lsLastProbe` with the database opened before and closed after them; "" when that fails. -/
def Http.ls (scan : Listed) (onLog : OnLog HttpReqEnv) : Bytes :=
  if !db.opens then []
  else
    let r := match scan with
      | .log => Http.lsLog server.count params.start params.finish params.offset params.count onLog db.store
          (Http.filters params memory)
      | .lastProbe => Http.lsLastProbe server.count params.start params.finish params.offset params.count onLog
          db.store (Http.filters params memory)
    if !db.closes then [] else r

/-- The text of a histogram, or of the error. -/
def Http.macsPerTimeText : Bytes :=
  if !db.opens then errorText ++ decimal ERRCODE_LMDB_OPEN
  else if !db.closes then errorText ++ decimal ERRCODE_LMDB_CLOSE
  else
    (Http.macsPerTime params.start params.finish db.store
      (HistogramMacsPerTime.make params.start params.finish params.step) (Http.filters params memory)).toJSON

/-- No data is an error. -/
def Http.dataAnswer (data : Bytes) : Answer := .data (if data = [] then MSG500 else data)

end Handler

/-- The second round of a GET request without upload data. -/
def httpHandler (server : HttpServer) (db : Database) (memory : Nat → Memory) (now : Int) (url : Bytes)
    (args : List (Option Bytes × Option Bytes)) : Answer :=
  let params := RequestParams.make now url args
  match params.requestType with
  | .log => Http.dataAnswer (Http.ls server db memory params .log onReqLog)
  | .lastLog => Http.dataAnswer (Http.ls server db memory params .lastProbe onReqLog)
  | .logCount => Http.dataAnswer (Http.ls server db memory params .log onReqLogCount)
  | .lastLogCount => Http.dataAnswer (Http.ls server db memory params .lastProbe onReqLogCount)
  | .macsPerTime => Http.dataAnswer (Http.macsPerTimeText db memory params)
  | .unknown =>
      match processFile server.fs (buildFileName server.realpath server.rootPath (some url)) with
      | some name => .file name
      | none => .notFound

/-! ### The parameters of a request -/

namespace RequestParams

theorem callbackArg_requestType (rp : RequestParams) (arg : Option Bytes × Option Bytes) :
    (rp.callbackArg arg).requestType = rp.requestType := by
  obtain ⟨key, value⟩ := arg
  cases key with
  | none => rfl
  | some key =>
      cases value with
      | none => rfl
      | some value =>
          unfold callbackArg
          dsimp only
          split_ifs <;> rfl

/-- Arguments do not change what a request is for. -/
theorem make_requestType (now : Int) (url : Bytes) (args : List (Option Bytes × Option Bytes)) :
    (make now url args).requestType = parseRequestType url := by
  have hargs : ∀ rp : RequestParams, (args.foldl callbackArg rp).requestType = rp.requestType := by
    induction args with
    | nil => exact fun _ => rfl
    | cons arg args ih => exact fun rp => (ih _).trans (callbackArg_requestType rp arg)
  unfold make
  dsimp only
  split_ifs
  · exact hargs _
  · exact hargs _

end RequestParams

theorem Listed.parse_path (scan : Listed) : RequestParams.parseRequestType scan.path = scan.requestType := by
  cases scan <;> rfl

/-! ### The page cap -/

/-- The record objects of a body read as JSON. -/
def recordObjects (body : Bytes) : Nat :=
  match parse body with
  | some (.arr js) => (js.filterMap itemOfJson).length
  | _ => 0

def Answer.recordObjects : Answer → Nat
  | .data body => Wacs.recordObjects body
  | _ => 0

theorem recordObjects_items (items : List LogItem) :
    recordObjects (Http.response (items.flatMap reqLogText)) = items.length := by
  have hread : itemOfJson ∘ itemJson = some := funext itemOfJson_itemJson
  rw [recordObjects, parse_items]
  show ((items.map itemJson).filterMap itemOfJson).length = _
  rw [List.filterMap_map, hread, List.filterMap_some]

theorem response_ne_nil (body : Bytes) : Http.response body ≠ [] := by
  unfold Http.response
  dsimp only
  split_ifs
  · exact fun h => absurd (congrArg List.length h) (by simp)
  · exact List.cons_ne_nil _ _

/-- The page size asked for, as `size_t`: that of the configuration when the request gives none or zero. -/
def pageSize (server : HttpServer) (params : RequestParams) : Nat :=
  (sizeT (if params.count = 0 then server.count else params.count)).toNat

/-- The records of all the filters of a request. -/
def matching (scan : Listed) (s : Store) (params : RequestParams) (memory : Nat → Memory) : Nat :=
  ((Http.filters params memory).map fun x => (reachedBy scan params.start params.finish s x).length).sum

theorem length_wholeAnswer (scan : Listed) (s : Store) (params : RequestParams) (memory : Nat → Memory) :
    (wholeAnswer scan params.start params.finish s (Http.filters params memory)).length =
      matching scan s params memory := by
  have hlength : (List.length ∘ unpaged scan params.start params.finish s) =
      fun x => (reachedBy scan params.start params.finish s x).length := by
    funext x
    exact length_unpaged scan params.start params.finish s x
  rw [wholeAnswer, List.length_flatten, List.map_map, hlength, matching]

section Cap

variable (server : HttpServer) (db : Database) (memory : Nat → Memory) (now : Int) (scan : Listed)
  (args : List (Option Bytes × Option Bytes))

theorem httpHandler_path :
    httpHandler server db memory now scan.path args =
      Http.dataAnswer (Http.ls server db memory (RequestParams.make now scan.path args) scan onReqLog) := by
  have htype : (RequestParams.make now scan.path args).requestType = scan.requestType := by
    rw [RequestParams.make_requestType, scan.parse_path]
  unfold httpHandler
  dsimp only
  rw [htype]
  cases scan <;> rfl

/-- The listing of an open database is the text of what the pager shows. -/
theorem ls_items (params : RequestParams) (hopens : db.opens = true) (hcloses : db.closes = true) :
    Http.ls server db memory params scan onReqLog =
      Http.response ((emitted scan params.start params.finish db.store
        (Http.reqEnv server.count params.offset params.count) (Http.filters params memory)).flatMap reqLogText) := by
  have hwrites := writesEmitted server.count params.start params.finish params.offset params.count db.store
    (Http.filters params memory)
  unfold Http.ls
  rw [hopens, hcloses]
  cases scan with
  | log => exact hwrites.log
  | lastProbe => exact hwrites.lastProbe

theorem ls_unavailable (params : RequestParams) (onLog : OnLog HttpReqEnv)
    (h : ¬(db.opens = true ∧ db.closes = true)) : Http.ls server db memory params scan onLog = [] := by
  unfold Http.ls
  cases hopens : db.opens with
  | false => rfl
  | true =>
      have hcloses : db.closes = false := Bool.eq_false_iff.mpr fun hcloses => h ⟨hopens, hcloses⟩
      rw [hcloses]
      rfl

/-- How many record objects are answered: a page of the records of all the filters, or none when the end of the
page wraps. -/
theorem recordObjects_httpHandler (hopens : db.opens = true) (hcloses : db.closes = true) :
    (httpHandler server db memory now scan.path args).recordObjects =
      let params := RequestParams.make now scan.path args
      if (sizeT params.offset).toNat + pageSize server params < 2 ^ 64 then
        min (pageSize server params) (matching scan db.store params memory - (sizeT params.offset).toNat)
      else 0 := by
  dsimp only
  rw [httpHandler_path, Http.dataAnswer, ls_items server db memory scan _ hopens hcloses,
    if_neg (response_ne_nil _), Answer.recordObjects, recordObjects_items, emitted, Pager.length_pass, ← wholeAnswer,
    length_wholeAnswer]
  rfl

/-- A request keeps the page size when the database cannot be used, when it asks for no more than the page size,
when the end of its page wraps, or when there is no more to list. -/
def KeepsPage (params : RequestParams) : Prop :=
  ¬(db.opens = true ∧ db.closes = true) ∨ pageSize server params ≤ (sizeT server.count).toNat ∨
    2 ^ 64 ≤ (sizeT params.offset).toNat + pageSize server params ∨
    matching scan db.store params memory ≤ (sizeT params.offset).toNat + (sizeT server.count).toNat

/-- The page size of the configuration bounds the record objects exactly in these requests. -/
theorem recordObjects_le_iff :
    (httpHandler server db memory now scan.path args).recordObjects ≤ (sizeT server.count).toNat ↔
      KeepsPage server db memory scan (RequestParams.make now scan.path args) := by
  by_cases havailable : db.opens = true ∧ db.closes = true
  · rw [recordObjects_httpHandler server db memory now scan args havailable.1 havailable.2, KeepsPage,
      or_iff_right (not_not_intro havailable)]
    dsimp only
    split_ifs with hbound
    · omega
    · exact iff_of_true (Nat.zero_le _) (Or.inr (Or.inl (not_lt.mp hbound)))
  · rw [httpHandler_path, ls_unavailable server db memory scan _ onReqLog havailable]
    exact iff_of_true (Nat.zero_le _) (Or.inl havailable)

end Cap

/-- A server whose pages have one record, without files. -/
def onePageServer : HttpServer := ⟨1, [], fun _ => none, oneFileSystem⟩

/-- Asked for a negative count, it answers both records of its database. -/
theorem page_cap_exceeded : ¬∀ (server : HttpServer) (db : Database) (memory : Nat → Memory) (now : Int)
    (scan : Listed) (args : List (Option Bytes × Option Bytes)),
    (httpHandler server db memory now scan.path args).recordObjects ≤ (sizeT server.count).toNat := by
  intro h
  let calls : List Step := [(.putLog sampleBuffer 100, filledMemory 0), (.putLog sampleBuffer 101, filledMemory 0)]
  let args : List (Option Bytes × Option Bytes) := [(some [99], some [45, 49])]
  have hbound := h onePageServer ⟨true, true, run .empty calls⟩ (fun _ => filledMemory 0) 200 .log args
  have hmatching : matching .log (run .empty calls) (RequestParams.make 200 Listed.log.path args)
      (fun _ => filledMemory 0) = 2 := by decide
  rw [recordObjects_httpHandler onePageServer _ _ 200 .log args rfl rfl] at hbound
  dsimp only at hbound
  rw [hmatching] at hbound
  exact absurd hbound (by decide)

end Wacs
