import Wacs.CopyLengths
import Wacs.HistogramTotal
import Wacs.ListedTables
import Wacs.NotePut
import Wacs.SendTest

/-! `wacsc` from its command line to its exit: the configuration, the command with the database opened before and
closed after it, what is printed and the exit status. -/

namespace Wacs.Wacsc

open OrderedCursor TextNumeral TextScan HistogramMacsPerTime

/-! ### Configuration -/

/-- The commands of `wacsc-config.h`. -/
inductive Command where
  | none
  | sendTest
  | lsLog
  | lsLastProbe
  | countLog
  | countLastProbe
  | macsPerTime
  | remove
  | logRead
  | logNotification
  | logNotificationPut
  | logNotificationRm
  deriving DecidableEq

def Command.listing : Listed → Command
  | .log => .lsLog
  | .lastProbe => .lsLastProbe

def Command.counting : Listed → Command
  | .log => .countLog
  | .lastProbe => .countLastProbe

/-- test, log, probe, log-count, probe-count, macs-per-time, remove, log-read, notification, notification-put,
notification-rm -/
def commandNames : List (Bytes × Command) :=
  [([116, 101, 115, 116], .sendTest), ([108, 111, 103], .lsLog), ([112, 114, 111, 98, 101], .lsLastProbe),
    ([108, 111, 103, 45, 99, 111, 117, 110, 116], .countLog),
    ([112, 114, 111, 98, 101, 45, 99, 111, 117, 110, 116], .countLastProbe),
    ([109, 97, 99, 115, 45, 112, 101, 114, 45, 116, 105, 109, 101], .macsPerTime),
    ([114, 101, 109, 111, 118, 101], .remove), ([108, 111, 103, 45, 114, 101, 97, 100], .logRead),
    ([110, 111, 116, 105, 102, 105, 99, 97, 116, 105, 111, 110], .logNotification),
    ([110, 111, 116, 105, 102, 105, 99, 97, 116, 105, 111, 110, 45, 112, 117, 116], .logNotificationPut),
    ([110, 111, 116, 105, 102, 105, 99, 97, 116, 105, 111, 110, 45, 114, 109], .logNotificationRm)]

def parseCommand (value : Bytes) : Command :=
  ((commandNames.find? fun name => name.1 = cString value).map Prod.snd).getD .none

/-- What argtable3 finds on a command line, with the errors it counts. -/
structure CommandLine where
  cmd : Option Bytes
  repeats : Option Int
  mac : List Bytes
  start : Option Bytes
  finish : Option Bytes
  deviceId : Option Int
  ssiSignal : Option Int
  offset : Option Int
  count : Option Int
  stepSeconds : Option Int
  help : Bool
  errors : Nat

/-- The configuration, but for the files and the message queue. -/
structure Config where
  errorcode : Int
  cmd : Command
  repeats : Int
  mac : List Bytes
  start : Int
  finish : Int
  deviceId : UInt16
  ssiSignal : Int16
  offset : UInt64
  count : Int
  stepSeconds : Int

/-- The configuration of a command line; `now` is the clock. -/
def parseCmd (z : Zone) (now : Int) (line : CommandLine) : Config :=
  let repeats := line.repeats.getD 1
  let cmd := (line.cmd.map parseCommand).getD .none
  let nerrors := line.errors + (if repeats ≤ 0 then 1 else 0) + (if cmd = .none then 1 else 0)
  { errorcode := if line.help ∨ nerrors ≠ 0 then 1 else 0
    cmd := cmd
    repeats := repeats
    mac := WacscConfig.mac line.mac
    start := (line.start.map fun v => parseDate z (cString v)).getD 0
    finish := (line.finish.map fun v => parseDate z (cString v)).getD now
    deviceId := (sizeT (line.deviceId.getD 0)).toUInt16
    ssiSignal := Int16.ofInt (line.ssiSignal.getD 0)
    offset := sizeT (line.offset.getD 0)
    count := line.count.getD (-1)
    stepSeconds := line.stepSeconds.getD 1 }

/-! ### The program -/

/-- What a run of the program finds: the database directory and whether it can be opened and closed, the file or
standard input, the memory its calls meet and what the variables without an initial value hold. -/
structure Surroundings where
  zone : Zone
  now : Int
  path : Bytes
  opens : Bool
  closes : Bool
  input : Bytes
  record : LogRecord
  memory : Nat → Memory
  unset : Int
  nn : (Nat × Nat) × Nn.NnCall → Int

/-- What is seen of a run; it has no status when it ends in a fault, or when the source does not determine it. -/
structure Outcome where
  status : Option Int
  out : Bytes
  err : Bytes

/-- "Can not open database file " -/
def ERR_LMDB_OPEN : Bytes :=
  [67, 97, 110, 32, 110, 111, 116, 32, 111, 112, 101, 110, 32, 100, 97, 116, 97, 98, 97, 115, 101, 32, 102, 105, 108,
    101, 32]

/-- "Can not close database file " -/
def ERR_LMDB_CLOSE : Bytes :=
  [67, 97, 110, 32, 110, 111, 116, 32, 99, 108, 111, 115, 101, 32, 100, 97, 116, 97, 98, 97, 115, 101, 32, 102, 105,
    108, 101, 32]

/-- "No config provided" -/
def ERR_NO_CONFIG : Bytes :=
  [78, 111, 32, 99, 111, 110, 102, 105, 103, 32, 112, 114, 111, 118, 105, 100, 101, 100]

/-- "Error " -/
def errorWord : Bytes := [69, 114, 114, 111, 114, 32]

/-- " records added." -/
def recordsAdded : Bytes := [32, 114, 101, 99, 111, 114, 100, 115, 32, 97, 100, 100, 101, 100, 46]

/-- " records removed." -/
def recordsRemoved : Bytes :=
  [32, 114, 101, 99, 111, 114, 100, 115, 32, 114, 101, 109, 111, 118, 101, 100, 46]

/-- A function of the database as it ends: its result, if it comes to one, what the callbacks have made of their
environment, what is printed on the way, and the store. -/
structure Result (σ : Type) where
  r : Option Int
  env : σ
  err : Bytes
  store : Store

/-- The frame of the database functions: the database is opened before the work and closed after it. -/
def withDb {σ : Type} (sur : Surroundings) (s : Store) (env : σ) (work : Option Int × σ × Store) : Result σ :=
  if !sur.opens then ⟨some ERRCODE_LMDB_OPEN, env, ERR_LMDB_OPEN ++ sur.path ++ [10], s⟩
  else if work.1 = none then ⟨none, work.2.1, [], work.2.2⟩
  else if !sur.closes then ⟨some ERRCODE_LMDB_CLOSE, work.2.1, ERR_LMDB_CLOSE ++ sur.path ++ [10], work.2.2⟩
  else ⟨work.1, work.2.1, [], work.2.2⟩

/-- The callback of the counts, with the sum and the flag of an interrupt. -/
def onLogCount (interruptFlag : Bool) : OnLog UInt64 := fun sum _ => (sum + 1, interruptFlag)

/-- The callback of `notificationList`, with what is printed. -/
def onNotification (interruptFlag : Bool) : Bytes → Mac × Bytes → Bytes × Bool := fun strm x =>
  (strm ++ mactostr x.1 ++ [9] ++ x.2 ++ [10], interruptFlag)

/-- What `main` prints of a count. -/
def report (c : Option Int) (records : Bytes) : Bytes × Bytes :=
  match c with
  | some c => if c < 0 then ([], errorWord ++ decimal c ++ [10]) else (decimal c ++ records ++ [10], [])
  | none => ([], [])

section Main

variable (config : Config) (sur : Surroundings) (s : Store)

/-- The texts of the addresses, each with the memory its call finds. -/
def Config.texts : List (Bytes × Memory) := config.mac.zipIdx.map fun x => (x.1, sur.memory x.2)

def Config.filters : List (Filter × Memory) := (config.texts sur).map fun x => (macFilter x.1, x.2)

/-- The request state as `main` sets it up. -/
def Config.reqEnv : ReqEnv := ⟨false, 0, config.offset, sizeT config.count, []⟩

def listing {σ : Type} (scan : Listed) (onLog : OnLog σ) (env : σ) : Result σ :=
  let r := list config.start config.finish onLog s scan env (config.filters sur)
  withDb sur s env (some r.1, r.2, s)

def histogram : Result HistogramMacsPerTime :=
  let h := HistogramMacsPerTime.make config.start config.finish config.stepSeconds
  let r := macsPerTime config.start config.finish s 0 h (config.filters sur)
  withDb sur s h (some r.1, r.2, s)

def removal : Result Unit :=
  let r := rmLog config.start config.finish s (config.texts sur)
  withDb sur s () (some r.1, (), r.2)

def loadLog : Result Unit :=
  let r := quietly (putLogEntries (supplied sur.zone sur.record sur.input) (sur.memory 0).pad) s
  withDb sur s () (some r.1, (), r.2)

def notificationList : Result Bytes :=
  let r := (quietly (lsNotification (sur.memory 0).slack (some (onNotification false)) []) s).1
  withDb sur s [] (some r.1, (r.2.map Listing.env).getD [], s)

/-- The checks of `notificationPut` come before the database is opened. -/
def notificationPutDb : Result Unit :=
  if validMacs (config.texts sur) = false ∨ sur.input.length = 0 then ⟨some ERRCODE_WRONG_PARAM, (), [], s⟩
  else
    let r := notificationPutFrom sur.input 0 s (config.texts sur)
    withDb sur s () (some r.1, (), r.2)

def notificationRmDb : Result Unit :=
  let r := notificationRm s (config.texts sur)
  withDb sur s () (r.1, (), r.2)

/-- The switch of `main`. The test and the listings set `reslt`; the other commands leave it zero, among them
`macs-per-time`, whose own `reslt` is the histogram. -/
def command : Outcome × Store :=
  match config.cmd with
  | .none => (⟨some 0, [], []⟩, s)
  | .sendTest =>
      let sent := (Nn.sendTest ⟨config.deviceId, config.ssiSignal, config.mac, config.repeats⟩ (fun _ => false)
        sur.unset).run sur.nn []
      (⟨some sent.1, [], []⟩, s)
  | .lsLog =>
      let r := listing config sur s .log (onLog sur.zone) config.reqEnv
      (⟨r.r, r.env.out, r.err⟩, r.store)
  | .lsLastProbe =>
      let r := listing config sur s .lastProbe (onLog sur.zone) config.reqEnv
      (⟨r.r, r.env.out, r.err⟩, r.store)
  | .countLog =>
      let r := listing config sur s .log (onLogCount false) 0
      (⟨r.r, numeral 10 1 r.env.toNat ++ [10], r.err⟩, r.store)
  | .countLastProbe =>
      let r := listing config sur s .lastProbe (onLogCount false) 0
      (⟨r.r, numeral 10 1 r.env.toNat ++ [10], r.err⟩, r.store)
  | .macsPerTime =>
      let r := histogram config sur s
      (⟨r.r.map fun _ => 0, r.env.toString sur.zone ++ [10], r.err⟩, r.store)
  | .remove =>
      let r := removal config sur s
      let said := report r.r recordsRemoved
      (⟨r.r.map fun _ => 0, said.1, r.err ++ said.2⟩, r.store)
  | .logRead =>
      let r := loadLog sur s
      let said := report r.r recordsAdded
      (⟨r.r.map fun _ => 0, said.1, r.err ++ said.2⟩, r.store)
  | .logNotification =>
      let r := notificationList sur s
      let said := if r.r.any fun c => decide (c < 0 ∧ c ≠ -30798) then (report r.r []).2 else []
      (⟨r.r.map fun _ => 0, r.env, r.err ++ said⟩, r.store)
  | .logNotificationPut =>
      let r := notificationPutDb config sur s
      let said := report r.r recordsAdded
      (⟨r.r.map fun _ => 0, said.1, r.err ++ said.2⟩, r.store)
  | .logNotificationRm =>
      let r := notificationRmDb config sur s
      let said := report r.r recordsRemoved
      (⟨r.r.map fun _ => 0, said.1, r.err ++ said.2⟩, r.store)

end Main

/-- The status of a refused command line is read of the configuration that has been deleted. -/
def main (line : CommandLine) (sur : Surroundings) (s : Store) : Outcome × Store :=
  let config := parseCmd sur.zone sur.now line
  if config.errorcode ≠ 0 then (⟨none, [], ERR_NO_CONFIG ++ [10]⟩, s)
  else command config sur s

end Wacs.Wacsc
