set_option autoImplicit false

/-!
# Output

What a command writes: results on one stream, messages and the log on the other.
-/

namespace FunLang

structure Output where
  stdout : String := ""
  stderr : String := ""
deriving DecidableEq, Repr, Inhabited

namespace Output

/-- One output after the other. -/
def append (a b : Output) : Output := ⟨a.stdout ++ b.stdout, a.stderr ++ b.stderr⟩

instance : Append Output := ⟨append⟩

/-- A text among the results. -/
def out (text : String) : Output := ⟨text, ""⟩

/-- A text among the messages. -/
def err (text : String) : Output := ⟨"", text⟩

/-- A line among the results. -/
def outLine (text : String) : Output := out (text ++ "\n")

/-- A line among the messages. -/
def errLine (text : String) : Output := err (text ++ "\n")

end Output

end FunLang
