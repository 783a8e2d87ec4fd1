import LoxExpr.Expr.Postorder
import LoxExpr.Expr
set_option autoImplicit false

namespace LoxExpr

namespace Expr

/-- The walk adds nodes in front, so it adds the same ones in front of any list. -/
theorem fold_listing (e : Expr) (tail : List Node) :
    e.fold listing tail = e.postorder ++ tail := by
  unfold postorder
  induction e generalizing tail with
  | literal v => rfl
  | grouping e ih =>
    show e.fold listing (.grouping :: tail) = e.fold listing [.grouping] ++ tail
    rw [ih (.grouping :: tail), ih [.grouping], List.append_assoc]
    rfl
  | unary op e ih =>
    show e.fold listing (.unary op :: tail) = e.fold listing [.unary op] ++ tail
    rw [ih (.unary op :: tail), ih [.unary op], List.append_assoc]
    rfl
  | binary l op r hl hr =>
    show l.fold listing (r.fold listing (.binary op :: tail)) =
      l.fold listing (r.fold listing [.binary op]) ++ tail
    rw [hl (r.fold listing _), hr (.binary op :: tail), hl (r.fold listing _), hr [.binary op],
      List.append_assoc, List.append_assoc]
    rfl

theorem postorder_literal (v : Literal) : (literal v).postorder = [.literal v] := rfl

theorem postorder_grouping (e : Expr) : (grouping e).postorder = e.postorder ++ [.grouping] :=
  e.fold_listing [.grouping]

theorem postorder_unary (op : Token) (e : Expr) :
    (unary op e).postorder = e.postorder ++ [.unary op] := e.fold_listing [.unary op]

theorem postorder_binary (l : Expr) (op : Token) (r : Expr) :
    (binary l op r).postorder = l.postorder ++ (r.postorder ++ [.binary op]) := by
  rw [← fold_listing r, ← fold_listing l]
  rfl

end Expr

/-- A visitor that adds a node behind the nodes of its children, of which it visits the left one
first. -/
structure Visitor.Emits (v : Visitor (List Node → List Node)) : Prop where
  literal : ∀ x out, v.literal x out = out ++ [.literal x]
  grouping : ∀ e out, v.grouping e out = e.accept v out ++ [.grouping]
  unary : ∀ op e out, v.unary op e out = e.accept v out ++ [.unary op]
  binary : ∀ l op r out, v.binary l op r out = r.accept v (l.accept v out) ++ [.binary op]

theorem Visitor.Emits.accept_eq {v : Visitor (List Node → List Node)} (h : v.Emits) (e : Expr)
    (out : List Node) : e.accept v out = out ++ e.postorder := by
  induction e generalizing out with
  | literal x => rw [Expr.accept, h.literal, Expr.postorder_literal]
  | grouping e ih => rw [Expr.accept, h.grouping, ih, Expr.postorder_grouping, List.append_assoc]
  | unary op e ih => rw [Expr.accept, h.unary, ih, Expr.postorder_unary, List.append_assoc]
  | binary l op r hl hr =>
    rw [Expr.accept, h.binary, hl, hr, Expr.postorder_binary]
    simp only [List.append_assoc]

def Expr.emission : Walk (List Node → List Node) where
  literal v out := out ++ [.literal v]
  grouping e out := e out ++ [.grouping]
  unary op e out := e out ++ [.unary op]
  binary l op r out := r (l out) ++ [.binary op]

theorem Expr.emits_emission : emission.visitor.Emits where
  literal _ _ := rfl
  grouping e out := by rw [accept_visitor]; rfl
  unary op e out := by rw [accept_visitor]; rfl
  binary l op r out := by rw [accept_visitor, accept_visitor]; rfl

namespace Node

/-- The nodes that have been read into the trees of a stack. -/
def spent (stack : List Expr) : List Node := stack.reverse.flatMap Expr.postorder

theorem spent_cons (e : Expr) (stack : List Expr) :
    spent (e :: stack) = spent stack ++ e.postorder := by simp [spent]

theorem spent_push {n : Node} {stack stack' : List Expr} (h : n.push stack = some stack') :
    spent stack' = spent stack ++ [n] := by
  cases n with
  | literal v =>
    obtain rfl := Option.some.inj h
    exact spent_cons _ _
  | grouping =>
    cases stack with
    | nil => cases h
    | cons e stack =>
      obtain rfl := Option.some.inj h
      rw [spent_cons, spent_cons, Expr.postorder_grouping, List.append_assoc]
  | unary op =>
    cases stack with
    | nil => cases h
    | cons e stack =>
      obtain rfl := Option.some.inj h
      rw [spent_cons, spent_cons, Expr.postorder_unary, List.append_assoc]
  | binary op =>
    match stack, h with
    | r :: l :: stack, h =>
      obtain rfl := Option.some.inj h
      rw [spent_cons, spent_cons, spent_cons, Expr.postorder_binary, List.append_assoc,
        List.append_assoc]

theorem spent_read {stack stack' : List Expr} {nodes : List Node}
    (h : read stack nodes = some stack') : spent stack' = spent stack ++ nodes := by
  induction nodes generalizing stack with
  | nil =>
    obtain rfl := Option.some.inj h
    exact (List.append_nil _).symm
  | cons n nodes ih =>
    obtain ⟨next, hpush, hread⟩ := Option.bind_eq_some_iff.1 h
    rw [ih hread, spent_push hpush, List.append_assoc]
    rfl

theorem read_postorder_append (e : Expr) (stack : List Expr) (tail : List Node) :
    read stack (e.postorder ++ tail) = read (e :: stack) tail := by
  rw [← e.fold_listing, read_listing]

theorem read_eq_singleton_iff {nodes : List Node} {e : Expr} :
    read [] nodes = some [e] ↔ nodes = e.postorder := by
  constructor
  · intro h
    have hspent := spent_read h
    rw [spent_cons] at hspent
    exact hspent.symm
  · rintro rfl
    have hread := read_postorder_append e [] []
    rwa [List.append_nil] at hread

/-- The nodes that a visitor emits behind their children put the tree on any stack, whatever
follows them; and they are the only nodes that are read as just this tree. -/
theorem read_accept {v : Visitor (List Node → List Node)} (h : v.Emits) :
    (∀ (e : Expr) (stack : List Expr) (tail : List Node),
      read stack (e.accept v [] ++ tail) = read (e :: stack) tail) ∧
    ∀ (nodes : List Node) (e : Expr), read [] nodes = some [e] ↔ nodes = e.accept v [] := by
  have haccept (e : Expr) : e.accept v [] = e.postorder := h.accept_eq e []
  refine ⟨fun e stack tail => ?_, fun nodes e => ?_⟩
  · rw [haccept, read_postorder_append]
  · rw [haccept, read_eq_singleton_iff]

theorem read_accept_difference :
    let bang : Token := ⟨.symbol .bang, "!", none, 1⟩
    let minus : Token := ⟨.symbol .minus, "-", none, 2⟩
    let difference : Expr :=
      .binary (.literal .nil) minus (.grouping (.unary bang (.literal (.bool true))))
    let nodes : List Node :=
      [.literal .nil, .literal (.bool true), .unary bang, .grouping, .binary minus]
    Expr.emission.visitor.Emits ∧ difference.accept Expr.emission.visitor [] = nodes ∧
      read [.literal (.bool false)] (nodes ++ [.unary bang]) =
        some [.unary bang difference, .literal (.bool false)] ∧
      read [] nodes = some [difference] := by
  intro bang minus difference nodes
  obtain ⟨hread, hiff⟩ := read_accept Expr.emits_emission
  have hnodes : difference.accept Expr.emission.visitor [] = nodes := rfl
  refine ⟨Expr.emits_emission, hnodes, ?_, (hiff nodes difference).2 hnodes.symm⟩
  rw [← hnodes, hread]
  rfl

end Node

end LoxExpr
