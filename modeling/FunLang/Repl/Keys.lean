set_option autoImplicit false

/-!
# Typed lines

What is typed becomes lines. Most keys add a character to the line; a few edit it, complete it, give
it up or end the input. A key with nothing to delete rings the bell.
-/

namespace FunLang.Repl

/-- The commands that a tab completes, each with the space after it. -/
def completions : List String := [":env ", ":data ", ":steps ", ":help ", ":quit "]

/-- The beginning that two texts have in common. -/
def common : List Char → List Char → List Char
  | a :: as, b :: bs => if a = b then a :: common as bs else []
  | _, _ => []

/-- The characters that a tab adds to a line: as far as the commands that begin with it agree. -/
def completion (typed : List Char) : List Char :=
  let start := typed.dropWhile (· == ' ')
  let rests := completions.filterMap fun name =>
    if start.isPrefixOf name.toList && start.length < name.length then
      some (name.toList.drop start.length)
    else none
  match rests with
  | [] => []
  | rest :: rests => rests.foldl common rest

/-- What comes of typing. -/
inductive Event where
  /-- A line is complete. -/
  | line (text : String)
  /-- A line has been given up. -/
  | interrupt (text : String)
  /-- A key had nothing to delete. -/
  | bell
  /-- The input has been ended. -/
  | stop
deriving DecidableEq, Repr, Inhabited

/-- The events of the keys that follow when `typed` is the line so far, its last character first. -/
def eventsAfter : (typed : List Char) → List Char → List Event
  | [], [] => []
  | typed, [] => [.line (String.ofList typed.reverse)]
  | typed, key :: keys =>
    let text := String.ofList typed.reverse
    if key = '\n' ∨ key = '\r' then .line text :: eventsAfter [] keys
    else if key = '\x03' then .interrupt text :: eventsAfter [] keys
    else if key = '\x04' then
      -- the end of the input on an empty line; elsewhere it deletes what follows the line's end
      if typed.isEmpty then [.stop] else .bell :: eventsAfter typed keys
    else if key = '\x00' then
      if typed.isEmpty then [.stop] else .line text :: eventsAfter [] keys
    else if key = '\x7f' ∨ key = '\x08' then
      if typed.isEmpty then .bell :: eventsAfter [] keys else eventsAfter typed.tail keys
    else if key = '\t' then eventsAfter ((completion typed.reverse).reverse ++ typed) keys
    else eventsAfter (key :: typed) keys

/-- The events of a sequence of keys. A line that is not ended is a line too. -/
def events (keys : String) : List Event := eventsAfter [] keys.toList

end FunLang.Repl
