import Wacs.OrderedInterrupts
import Wacs.WacscPrints

/-! The commands of `wacsc` while SIGINT comes in. The first signal sets a flag that the callbacks of the listings
return once they have shown an entry; the loops over the addresses do not look at it. -/

namespace Wacs.Wacsc

open OrderBytes OrderedCursor OrderedPages TextNumeral HistogramMacsPerTime

/-! ### The commands -/

/-- The loop of `macsPerTime`, for any callback. -/
def macsPerTimeOver {σ : Type} (onLog : OnLog σ) (start finish : Int) (s : Store) :
    Int → σ → List (Filter × Memory) → Int × σ
  | r, retval, [] => (r, retval)
  | _, retval, x :: mac =>
      let r := listOnce .log start finish onLog s retval x
      macsPerTimeOver onLog start finish s r.1 r.2 mac

theorem macsPerTimeOver_onLogHistogram (start finish : Int) (s : Store) (r : Int) (h : HistogramMacsPerTime)
    (mac : List (Filter × Memory)) :
    macsPerTimeOver (onLogHistogram false) start finish s r h mac = macsPerTime start finish s r h mac := by
  induction mac generalizing r h with
  | nil => rfl
  | cons x mac ih => exact ih _ _

section Commands

variable (config : Config) (sur : Surroundings) (s : Store) (arrival : Nat)

end Commands

/-! ### The callbacks -/

section Prints

variable (config : Config) (sur : Surroundings) (s : Store) (arrival : Nat)

/-- What the scans of a command come to, address by address. -/
def Config.answers (scan : Listed) : List (List LogItem) :=
  (config.filters sur).map (unpaged scan config.start config.finish s)

/-- The notifications, as `lsNotification` hands them on. -/
def notes : List (Mac × Bytes) :=
  (visited lsNotificationTest (s.seek lsNotificationSeek)).map (lsNotificationItem (sur.memory 0).slack)

end Prints

section Interrupted

variable (config : Config) (sur : Surroundings) (calls : List Step) (arrival : Nat) (hopens : sur.opens = true)
include hopens

end Interrupted

end Wacs.Wacsc
