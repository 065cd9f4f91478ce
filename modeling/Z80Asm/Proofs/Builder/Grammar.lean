import Z80Asm.Expr.Builder

/-!
# The grammar of expressions

Which trees the written language has, and how each of them is written. Nothing here looks at how
expressions are built; `Proofs/Builder/Completeness` compares the two.

`Expr.Derives scope level e` says that `e` can stand where the grammar asks for `level`:

| level | | |
|---|---|---|
| -2 | comma list | `Ann` or `Ann , Ann , ...` |
| -1 | annotation, `Ann` | `Tern` or `name Ann` |
| 0 | conditional, `Tern` | `Bin 1` or `Bin 1 ? List : Tern` |
| 1 to 10 | binary, `Bin k` | `Bin (k + 1)` or `Bin k op Bin (k + 1)` |
| 11 | unary | `Post` or `op Unary` |
| 12 | operand, `Post` | atom, `( List )`, `Post . name` or `Post [ List ]` |

Each level includes the tighter ones (`Expr.Derives.looser`). Names are written in one scope, which
the trees of member accesses and annotations do not keep, so it is an argument.
-/
set_option autoImplicit false

namespace Z80Asm

/-- The level of a binary operator. All of them combine from the left. -/
def BinaryOp.level : BinaryOp → Int
  | logicOr => 1
  | logicAnd => 2
  | bitOr => 3
  | bitXor => 4
  | bitAnd => 5
  | eq | ne => 6
  | lt | le | gt | ge => 7
  | shl | shr => 8
  | add | sub => 9
  | mul | div | mod => 10

theorem BinaryOp.level_range (op : BinaryOp) : 1 ≤ op.level ∧ op.level ≤ 10 := by
  cases op <;> decide

/-- A literal, or a name read in `scope`. -/
inductive Expr.IsAtom (scope : ScopeId) : Expr → Prop
  | int (value : Int64) : IsAtom scope (.int value)
  | str (bytes : List UInt8) : IsAtom scope (.str bytes)
  | chr (byte : UInt8) : IsAtom scope (.chr byte)
  | ident (name : String) : IsAtom scope (.ident name scope)

/-- The trees that can stand at a level. The level is an index, so that one induction goes through
    all levels and the looser ones need no rules of their own. -/
inductive Expr.Derives (scope : ScopeId) : Int → Expr → Prop
  | atom {e : Expr} : e.IsAtom scope → Derives scope 12 e
  | group {inner : Expr} : Derives scope (-2) inner → Derives scope 12 (.group inner)
  | member {object : Expr} (name : String) :
      Derives scope 12 object → Derives scope 12 (.member object name)
  | index {sequence position : Expr} :
      Derives scope 12 sequence → Derives scope (-2) position →
      Derives scope 12 (.index sequence position)
  | unary {operand : Expr} (op : UnaryOp) :
      Derives scope 11 operand → Derives scope 11 (.unary op operand)
  | binary {left right : Expr} (op : BinaryOp) :
      Derives scope op.level left → Derives scope (op.level + 1) right →
      Derives scope op.level (.binary op left right)
  | ifElse {cond onTrue onFalse : Expr} :
      Derives scope 1 cond → Derives scope (-2) onTrue → Derives scope 0 onFalse →
      Derives scope 0 (.ifElse cond onTrue onFalse)
  | annotated {inner : Expr} (word : String) :
      Derives scope (-1) inner → Derives scope (-1) (.annotated word inner)
  /-- Items are no comma lists themselves, so lists are flat. -/
  | seq {items : List Expr} :
      2 ≤ items.length → (∀ e ∈ items, Derives scope (-1) e) → Derives scope (-2) (.seq items)
  | looser {level : Int} {e : Expr} : Derives scope (level + 1) e → Derives scope level e

/-- What stands at a level stands at every looser one. -/
theorem Expr.Derives.weaken {scope : ScopeId} {level looser : Int} {e : Expr}
    (h : e.Derives scope level) (hle : looser ≤ level) : e.Derives scope looser := by
  obtain ⟨n, rfl⟩ : ∃ n : Nat, level = looser + n := ⟨(level - looser).toNat, by omega⟩
  clear hle
  induction n with
  | zero => simpa using h
  | succ n ih =>
    refine ih (.looser ?_)
    have hcast : looser + ((n + 1 : Nat) : Int) = looser + n + 1 := by omega
    rwa [hcast] at h

/-- Comma lists stand at the loosest level only. -/
theorem Expr.Derives.level_of_seq {scope : ScopeId} {level : Int} {items : List Expr}
    (h : (Expr.seq items).Derives scope level) : level ≤ -2 := by
  generalize he : Expr.seq items = e at h
  induction h with
  | atom ha => subst he; cases ha
  | seq _ _ _ => exact Int.le_refl _
  | looser _ ih => have := ih he; omega
  | _ => cases he

/-- All but comma lists can be an item of one. -/
theorem Expr.Derives.item_of_ne_seq {scope : ScopeId} {level : Int} {e : Expr}
    (h : e.Derives scope level) (hne : ∀ items, e ≠ .seq items) : e.Derives scope (-1) := by
  induction h with
  | atom ha => exact (Derives.atom ha).weaken (by decide)
  | group hi _ => exact (Derives.group hi).weaken (by decide)
  | member name ho _ => exact (Derives.member name ho).weaken (by decide)
  | index hs hp _ _ => exact (Derives.index hs hp).weaken (by decide)
  | unary op ho _ => exact (Derives.unary op ho).weaken (by decide)
  | binary op hl hr _ _ => exact (Derives.binary op hl hr).weaken (by have := op.level_range; omega)
  | ifElse hc ht hf _ _ _ => exact (Derives.ifElse hc ht hf).weaken (by decide)
  | annotated word hi _ => exact .annotated word hi
  | seq _ _ _ => exact absurd rfl (hne _)
  | looser _ ih => exact ih hne

/-- The items of a comma list are annotations. -/
theorem Expr.Derives.of_seq {scope : ScopeId} {level : Int} {items : List Expr}
    (h : (Expr.seq items).Derives scope level) :
    2 ≤ items.length ∧ ∀ e ∈ items, e.Derives scope (-1) := by
  generalize he : Expr.seq items = e at h
  induction h with
  | atom ha => subst he; cases ha
  | seq hlen hall _ => cases he; exact ⟨hlen, hall⟩
  | looser _ ih => exact ih he
  | _ => cases he

/-- A name that stands in an expression was read in its scope. -/
theorem Expr.Derives.scope_eq {scope other : ScopeId} {level : Int} {name : String}
    (h : (Expr.ident name other).Derives scope level) : other = scope := by
  generalize he : Expr.ident name other = e at h
  induction h with
  | atom ha => subst he; cases ha; rfl
  | looser _ ih => exact ih he
  | _ => cases he

/-! ## Writing a tree -/

mutual

/-- How a tree is written, with its names in `scope`. -/
def Expr.tokens (scope : ScopeId) : Expr → List Token
  | .unary op operand => .unary op :: operand.tokens scope
  | .binary op left right => left.tokens scope ++ .binary op :: right.tokens scope
  | .ifElse cond onTrue onFalse =>
    cond.tokens scope ++ .question :: (onTrue.tokens scope ++ .colon :: onFalse.tokens scope)
  | .seq [] => []
  | .seq (first :: rest) => first.tokens scope ++ laterTokens scope rest
  | .member object name => object.tokens scope ++ [.member, .value (.ident name scope)]
  | .index sequence position =>
    sequence.tokens scope ++ .openIndex :: (position.tokens scope ++ [.closeIndex])
  | .group inner => .openGroup :: (inner.tokens scope ++ [.closeGroup])
  | .annotated word inner => .value (.ident word scope) :: .annotate :: inner.tokens scope
  | e => [.value e]

/-- The items of a comma list behind the first. -/
def laterTokens (scope : ScopeId) : List Expr → List Token
  | [] => []
  | e :: rest => .comma :: (e.tokens scope ++ laterTokens scope rest)

end

theorem laterTokens_append (scope : ScopeId) (items more : List Expr) :
    laterTokens scope (items ++ more) = laterTokens scope items ++ laterTokens scope more := by
  induction items with
  | nil => simp [laterTokens]
  | cons e rest ih => simp [laterTokens, ih]

theorem Expr.IsAtom.tokens_eq {scope : ScopeId} {e : Expr} (h : e.IsAtom scope) :
    e.tokens scope = [.value e] := by
  cases h <;> simp [Expr.tokens]

/-- Adding an item to a comma list adds a comma and the item. -/
theorem Expr.tokens_seq_append {scope : ScopeId} {items : List Expr} (hne : items ≠ [])
    (last : Expr) :
    (Expr.seq (items ++ [last])).tokens scope =
      (Expr.seq items).tokens scope ++ .comma :: last.tokens scope := by
  cases items with
  | nil => exact absurd rfl hne
  | cons first rest => simp [Expr.tokens, laterTokens_append, laterTokens]

/-- The values among tokens are atoms. -/
def Token.IsAtomic (scope : ScopeId) : Token → Prop
  | .value e => e.IsAtom scope
  | _ => True

/-- A tree of the grammar is written with atoms only. -/
theorem Expr.Derives.isAtomic_tokens {scope : ScopeId} {level : Int} {e : Expr}
    (h : e.Derives scope level) : ∀ t ∈ e.tokens scope, t.IsAtomic scope := by
  induction h with
  | atom ha => rw [ha.tokens_eq]; simpa [Token.IsAtomic] using ha
  | group _ ih => simpa [Expr.tokens, Token.IsAtomic, or_imp, forall_and] using ih
  | member name _ ih =>
    simpa [Expr.tokens, Token.IsAtomic, or_imp, forall_and, Expr.IsAtom.ident] using ih
  | index _ _ ihs ihp =>
    simpa [Expr.tokens, Token.IsAtomic, or_imp, forall_and] using ⟨ihs, ihp⟩
  | unary op _ ih => simpa [Expr.tokens, Token.IsAtomic, or_imp, forall_and] using ih
  | binary op _ _ ihl ihr =>
    simpa [Expr.tokens, Token.IsAtomic, or_imp, forall_and] using ⟨ihl, ihr⟩
  | ifElse _ _ _ ihc iht ihf =>
    simpa [Expr.tokens, Token.IsAtomic, or_imp, forall_and] using ⟨ihc, iht, ihf⟩
  | annotated word _ ih =>
    simpa [Expr.tokens, Token.IsAtomic, or_imp, forall_and, Expr.IsAtom.ident] using ih
  | @seq items _ _ ih =>
    have hlater : ∀ rest : List Expr, (∀ e ∈ rest, ∀ t ∈ e.tokens scope, t.IsAtomic scope) →
        ∀ t ∈ laterTokens scope rest, t.IsAtomic scope := by
      intro rest
      induction rest with
      | nil => simp [laterTokens]
      | cons e rest ihr =>
        intro hall
        have hrest := ihr fun e he => hall e (by simp [he])
        simpa [laterTokens, Token.IsAtomic, or_imp, forall_and] using
          ⟨hall e (by simp), hrest⟩
    cases items with
    | nil => simp [Expr.tokens]
    | cons first rest =>
      have hrest := hlater rest fun e he => ih e (by simp [he])
      simpa [Expr.tokens, or_imp, forall_and] using ⟨ih first (by simp), hrest⟩
  | looser _ ih => exact ih

end Z80Asm
