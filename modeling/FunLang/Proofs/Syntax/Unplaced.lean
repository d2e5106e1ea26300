import FunLang.Parser.State
import Mathlib.Tactic

set_option autoImplicit false

/-!
# Trees without places

`unplaced` forgets where the parts of a tree stand, so that two trees are the same up to their
places if they have the same image. The forms that only come up in the middle of an evaluation are
left as they are. Tables of constructors are compared in the same way (`CtorTable.Alike`).
-/

namespace FunLang

def Ty.unplaced : Ty → Ty
  | .missing => .missing
  | .name _ n => .name .unknown n
  | .arrow _ t u => .arrow .unknown t.unplaced u.unplaced

def Constructor.unplaced (c : Constructor) : Constructor :=
  ⟨c.name, c.fields.map Ty.unplaced, c.type, .unknown⟩

mutual

def Pattern.unplaced : Pattern → Pattern
  | .missing => .missing
  | .int _ n => .int .unknown n
  | .bool _ b => .bool .unknown b
  | .var _ x => .var .unknown x
  | .ctor _ c ps => .ctor .unknown c.unplaced (Pattern.unplacedAll ps)

def Pattern.unplacedAll : List Pattern → List Pattern
  | [] => []
  | p :: ps => p.unplaced :: Pattern.unplacedAll ps

end

mutual

def Expr.unplaced : Expr → Expr
  | .var _ x => .var .unknown x
  | .int _ n => .int .unknown n
  | .bool _ b => .bool .unknown b
  | .binary _ op l r => .binary .unknown op l.unplaced r.unplaced
  | .cond _ c t e => .cond .unknown c.unplaced t.unplaced e.unplaced
  | .fn _ x body => .fn .unknown x body.unplaced
  | .app _ f args => .app .unknown f.unplaced (Expr.unplacedAll args)
  | .letIn _ x bound body => .letIn .unknown x bound.unplaced body.unplaced
  | .annot _ e t => .annot .unknown e.unplaced t.unplaced
  | .ctor _ c => .ctor .unknown c.unplaced
  | .cases _ s alts => .cases .unknown s.unplaced (Alt.unplacedAll alts)
  | e => e

def Expr.unplacedAll : List Expr → List Expr
  | [] => []
  | e :: es => e.unplaced :: Expr.unplacedAll es

def Alt.unplacedAll : List Alt → List Alt
  | [] => []
  | .mk _ p e :: alts => .mk .unknown p.unplaced e.unplaced :: Alt.unplacedAll alts

end

def Import.unplaced (i : Import) : Import := ⟨i.path, .unknown⟩

def DataDecl.unplaced (d : DataDecl) : DataDecl :=
  ⟨d.name, d.ctors.map Constructor.unplaced, .unknown⟩

def Program.unplaced (p : Program) : Program :=
  ⟨p.imports.map Import.unplaced, p.data.map DataDecl.unplaced, p.body.unplaced⟩

/-! ## Forms

Which form an expression has can be seen without its places. -/

namespace Expr

attribute [local simp] unplaced unplacedAll

variable {e : Expr} {p : Pos}

theorem exists_of_unplaced_var {x : String} (h : e.unplaced = .var p x) : ∃ q, e = .var q x := by
  cases e <;> simp only [Expr.unplaced, Expr.var.injEq, reduceCtorEq] at h
  exact ⟨_, by rw [h.2]⟩

theorem exists_of_unplaced_int {n : Int64} (h : e.unplaced = .int p n) : ∃ q, e = .int q n := by
  cases e <;> simp only [Expr.unplaced, Expr.int.injEq, reduceCtorEq] at h
  exact ⟨_, by rw [h.2]⟩

theorem exists_of_unplaced_bool {b : Bool} (h : e.unplaced = .bool p b) : ∃ q, e = .bool q b := by
  cases e <;> simp only [Expr.unplaced, Expr.bool.injEq, reduceCtorEq] at h
  exact ⟨_, by rw [h.2]⟩

theorem exists_of_unplaced_ctor {c : Constructor} (h : e.unplaced = .ctor p c) :
    ∃ q c', e = .ctor q c' ∧ c'.name = c.name := by
  cases e <;> simp only [Expr.unplaced, Expr.ctor.injEq, reduceCtorEq] at h
  exact ⟨_, _, rfl, by rw [← h.2]; rfl⟩

theorem exists_of_unplaced_binary {op : BinOp} {l r : Expr} (h : e.unplaced = .binary p op l r) :
    ∃ q l' r', e = .binary q op l' r' ∧ l'.unplaced = l ∧ r'.unplaced = r := by
  cases e <;> simp only [Expr.unplaced, Expr.binary.injEq, reduceCtorEq] at h
  exact ⟨_, _, _, by rw [h.2.1], h.2.2⟩

theorem exists_of_unplaced_cond {c t f : Expr} (h : e.unplaced = .cond p c t f) :
    ∃ q c' t' f', e = .cond q c' t' f' ∧ c'.unplaced = c ∧ t'.unplaced = t ∧ f'.unplaced = f := by
  cases e <;> simp only [Expr.unplaced, Expr.cond.injEq, reduceCtorEq] at h
  exact ⟨_, _, _, _, rfl, h.2⟩

theorem exists_of_unplaced_fn {x : String} {b : Expr} (h : e.unplaced = .fn p x b) :
    ∃ q b', e = .fn q x b' ∧ b'.unplaced = b := by
  cases e <;> simp only [Expr.unplaced, Expr.fn.injEq, reduceCtorEq] at h
  exact ⟨_, _, by rw [h.2.1], h.2.2⟩

theorem exists_of_unplaced_app {f : Expr} {as : List Expr} (h : e.unplaced = .app p f as) :
    ∃ q g bs, e = .app q g bs ∧ g.unplaced = f ∧ Expr.unplacedAll bs = as := by
  cases e <;> simp only [Expr.unplaced, Expr.app.injEq, reduceCtorEq] at h
  exact ⟨_, _, _, rfl, h.2⟩

theorem exists_of_unplaced_app_one {f a : Expr} (h : e.unplaced = .app p f [a]) :
    ∃ q g b, e = .app q g [b] ∧ g.unplaced = f ∧ b.unplaced = a := by
  obtain ⟨q, g, bs, rfl, hg, hbs⟩ := exists_of_unplaced_app h
  cases bs with
  | nil => simp at hbs
  | cons b bs =>
      cases bs with
      | nil => exact ⟨q, g, b, rfl, hg, by simpa using hbs⟩
      | cons b' bs => simp at hbs

theorem exists_of_unplaced_letIn {x : String} {b f : Expr} (h : e.unplaced = .letIn p x b f) :
    ∃ q b' f', e = .letIn q x b' f' ∧ b'.unplaced = b ∧ f'.unplaced = f := by
  cases e <;> simp only [Expr.unplaced, Expr.letIn.injEq, reduceCtorEq] at h
  exact ⟨_, _, _, by rw [h.2.1], h.2.2⟩

end Expr

/-! ## Tables of constructors -/

namespace CtorTable

/-- Two tables know the same constructors, which may stand at different places. -/
def Alike (Γ Δ : CtorTable) : Prop :=
  ∀ x, (Δ.find? x).map Constructor.unplaced = (Γ.find? x).map Constructor.unplaced

variable {Γ Δ : CtorTable}

theorem Alike.refl (Γ : CtorTable) : Alike Γ Γ := fun _ => rfl

theorem find?_map_unplaced (Γ : CtorTable) (x : String) :
    (Γ.find? x).map Constructor.unplaced = CtorTable.find? (Γ.map Constructor.unplaced) x := by
  unfold CtorTable.find?
  rw [List.find?_map]
  rfl

theorem alike_of_map_eq (h : Δ.map Constructor.unplaced = Γ.map Constructor.unplaced) :
    Alike Γ Δ := by
  intro x
  rw [find?_map_unplaced, find?_map_unplaced, h]

theorem Alike.find?_eq_none (h : Alike Γ Δ) {x : String} (hx : Γ.find? x = none) :
    Δ.find? x = none := by
  simpa [hx] using h x

theorem Alike.exists_of_find? (h : Alike Γ Δ) {x : String} {c : Constructor}
    (hx : Γ.find? x = some c) : ∃ c', Δ.find? x = some c' ∧ c'.unplaced = c.unplaced := by
  simpa [hx] using h x

end CtorTable

end FunLang
