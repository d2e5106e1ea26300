import FunLang.Parser.Programs
import FunLang.Proofs.Grammar.Starts

set_option autoImplicit false

/-!
# What a parser yields

`Yields p s a s'` says that `p` gives `a` and leads from the state `s` to the state `s'`. All the states
here are such that nothing has been reported (`State.before`), and the rules cover the cases in which
nothing is. They let the run of a parser on a given sequence of tokens be put together from the runs of
its parts.
-/

namespace FunLang.Parser

open Grammar

/-- The state before the tokens `ts` if nothing has been reported. -/
def State.before (Γ : CtorTable) (ts : List Token) : State := ⟨ts, false, [], Γ⟩

@[simp] theorem State.kind_current_before (Γ : CtorTable) (ts : List Token) :
    (State.before Γ ts).current.kind = nextKind ts := rfl

@[simp] theorem State.current_before_cons (Γ : CtorTable) (t : Token) (ts : List Token) :
    (State.before Γ (t :: ts)).current = t := rfl

variable {α β : Type}

def Yields (p : Parser α) (s : State) (a : α) (s' : State) : Prop := p.run s = (a, s')

theorem yields_pure (a : α) (s : State) : Yields (pure a) s a s := rfl

theorem Yields.bind {p : Parser α} {f : α → Parser β} {s s₁ s₂ : State} {a : α} {b : β}
    (hp : Yields p s a s₁) (hf : Yields (f a) s₁ b s₂) : Yields (p >>= f) s b s₂ := by
  show (f (p.run s).1).run (p.run s).2 = (b, s₂)
  rw [hp]
  exact hf

/-! ## Looking ahead -/

theorem yields_current_bind {f : Token → Parser β} {s s' : State} {b : β}
    (h : Yields (f s.current) s b s') : Yields (current >>= f) s b s' := h

theorem yields_peek_bind {f : Token → Parser β} {s s' : State} {b : β}
    (h : Yields (f s.peek) s b s') : Yields (peek >>= f) s b s' := h

theorem yields_check_bind {k : TokenKind} {f : Bool → Parser β} {s s' : State} {b : β}
    (h : Yields (f (s.current.kind == k)) s b s') : Yields (check k >>= f) s b s' := h

theorem yields_ctor?_bind {name : String} {f : Option Constructor → Parser β} {s s' : State} {b : β}
    (h : Yields (f (s.ctors.find? name)) s b s') : Yields (ctor? name >>= f) s b s' := h

/-! ## Passing over tokens -/

variable {Γ : CtorTable}

theorem yields_advance (t : Token) (ts : List Token) :
    Yields advance (.before Γ (t :: ts)) t (.before Γ ts) := rfl

theorem yields_expect {k : TokenKind} {t : Token} (ht : t.kind = k) (ts : List Token) :
    Yields (expect k) (.before Γ (t :: ts)) t (.before Γ ts) := by
  refine yields_current_bind ?_
  rw [if_pos (by simpa using ht)]
  rfl

theorem yields_accept {k : TokenKind} {t : Token} (ht : t.kind = k) (ts : List Token) :
    Yields (accept k) (.before Γ (t :: ts)) true (.before Γ ts) := by
  refine yields_check_bind ?_
  rw [if_pos (by simpa using ht)]
  rfl

theorem yields_accept_of_ne {k : TokenKind} {ts : List Token} (hk : nextKind ts ≠ k) :
    Yields (accept k) (.before Γ ts) false (.before Γ ts) := by
  refine yields_check_bind ?_
  rw [if_neg (by simpa using hk)]
  rfl

/-! ## Literals and names -/

theorem yields_intLiteral {t : Token} {negative : Bool} {n : Int64}
    (h : n.toInt = (if negative then - (digitsValue t.literal : Int) else digitsValue t.literal))
    (s : State) : Yields (intLiteral t negative) s n s := by
  unfold intLiteral
  rw [← h]
  show Yields (if minInt ≤ n.toInt ∧ n.toInt ≤ maxInt then pure (Int64.ofInt n.toInt) else _) s n s
  have hmin := n.le_toInt
  have hmax := n.toInt_lt
  rw [if_pos (by unfold minInt maxInt; omega), Int64.ofInt_toInt]
  exact yields_pure n s

theorem yields_binderName {t : Token} (ht : IsVariable Γ t) (ts : List Token) :
    Yields binderName (.before Γ (t :: ts)) t.text (.before Γ ts) := by
  unfold binderName
  refine (yields_expect ht.1 ts).bind ?_
  rw [if_neg (by simp [ht.1])]
  refine yields_ctor?_bind ?_
  rw [if_neg]
  · exact yields_pure _ _
  · simpa [State.before] using ht.2

end FunLang.Parser
