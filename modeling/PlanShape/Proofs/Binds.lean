import PlanShape.Proofs.Postorder
import PlanShape.Proofs.SqlText
import PlanShape.Proofs.Structure

/-!
Binds and literals in line. One callback binds the values of its node, or refuses a list that is too
long and binds nothing of it. From this follows what a whole walk has bound, wherever it ends, and
which compiled predicates are refused.
-/
namespace PlanShape

variable {ρ κ : Type}

/-- There is one literal for each leaf and one for each value of a list. -/
theorem Predicate.length_literals (p : Predicate ρ κ) :
    p.literals.length = p.leafCount + (p.lists.map List.length).sum := by
  induction p with
  | always | never | equals | member => simp [literals, leafCount, equalities, lists]
  | disj p q ihp ihq =>
    rw [literals, List.length_append, ihp, ihq, leafCount_disj, lists, List.map_append,
      List.sum_append]
    omega
  | neg p ih =>
    rw [leafCount_neg]
    exact ih

/-- The values that a node asks to be bound. -/
def Node.values : Node ρ κ → List κ
  | .equals _ v => [v]
  | .member _ vs => vs
  | .always | .never | .disj | .neg => []

/-- Not a list that is longer than the limit. -/
def Node.Fits (maxBinds : Option Nat) : Node ρ κ → Prop
  | .member _ vs => Sql.Within maxBinds vs.length
  | .always | .never | .equals .. | .disj | .neg => True

@[simp] theorem Node.fits_member {maxBinds : Option Nat} {f : Field ρ κ} {vs : List κ} :
    (Node.member f vs).Fits maxBinds ↔ Sql.Within maxBinds vs.length := Iff.rfl
@[simp] theorem Node.fits_disj (maxBinds : Option Nat) : (Node.disj : Node ρ κ).Fits maxBinds :=
  trivial
@[simp] theorem Node.fits_neg (maxBinds : Option Nat) : (Node.neg : Node ρ κ).Fits maxBinds :=
  trivial

theorem Predicate.flatMap_values_postorder (p : Predicate ρ κ) :
    p.postorder.flatMap Node.values = p.literals := by
  induction p with
  | always | never | equals => rfl
  | disj p q ihp ihq => simp [postorder, literals, ihp, ihq, Node.values]
  | neg p ih => simp [postorder, literals, ih, Node.values]
  | member f vs => simp [postorder, literals, Node.values]

theorem Predicate.fits_postorder_iff {maxBinds : Option Nat} {p : Predicate ρ κ} :
    (∀ n ∈ p.postorder, n.Fits maxBinds) ↔ ∀ vs ∈ p.lists, Sql.Within maxBinds vs.length := by
  induction p with
  | always | never | equals => simp [postorder, lists, Node.Fits]
  | disj p q ihp ihq => simp [postorder, lists, or_imp, forall_and, ihp, ihq]
  | neg p ih => simp [postorder, lists, or_imp, forall_and, ih]
  | member f vs => simp [postorder, lists]

namespace Sql

/-- A callback whose node fits binds the values of the node. -/
theorem answer_of_fits {maxBinds : Option Nat} {c : Call String ρ κ}
    (h : c.node.Fits maxBinds) (binds : Array κ) :
    ∃ text, (backend maxBinds).answer c binds = (.ok text, binds ++ c.node.values) := by
  cases c with
  | always | never | disj | neg =>
    rw [Call.node, Node.values, Array.appendList_nil]
    exact ⟨_, rfl⟩
  | equals f v => exact ⟨_, equals_apply maxBinds f v binds⟩
  | member f vs => exact ⟨_, member_of_within h f binds⟩

/-- Only a list that is too long is refused, and nothing of it is bound. -/
theorem answer_of_not_fits {maxBinds : Option Nat} {c : Call String ρ κ}
    (h : ¬c.node.Fits maxBinds) (binds : Array κ) :
    ∃ f vs, c.node = .member f vs ∧
      (backend maxBinds).answer c binds = (.error (.tooManyBinds vs.length), binds) := by
  cases c with
  | always | never | disj | neg | equals => exact absurd trivial h
  | member f vs => exact ⟨f, vs, rfl, member_of_not_within h f binds⟩

/-- Callbacks that are all answered have bound the values of their nodes, one after the other. -/
theorem binds_of_answers {maxBinds : Option Nat} {binds binds' : Array κ}
    {cs : List (Call String ρ κ)} (h : (backend maxBinds).Answers binds cs binds') :
    binds' = binds ++ (cs.map Call.node).flatMap Node.values ∧
      ∀ n ∈ cs.map Call.node, n.Fits maxBinds := by
  induction h with
  | none binds => simp
  | @next binds binds₁ binds' c cs x first rest ih =>
    have hfits : c.node.Fits maxBinds := by
      by_contra hnot
      obtain ⟨f, vs, -, hrefused⟩ := answer_of_not_fits hnot binds
      rw [first] at hrefused
      cases hrefused
    obtain ⟨text, hbound⟩ := answer_of_fits hfits binds
    rw [first] at hbound
    obtain rfl : binds₁ = binds ++ c.node.values := congrArg Prod.snd hbound
    constructor
    · rw [ih.1, append_append_values]
      rfl
    · simpa using ⟨hfits, by simpa using ih.2⟩

/-- What a walk leaves when it is refused: one list is too long, every list left of it fits, and of
all literals those left of it are bound. -/
inductive Refused (maxBinds : Option Nat) (p : Predicate ρ κ) (binds : Array κ) :
    LoweringError → Array κ → Prop where
  | tooLong {before after : List (Node ρ κ)} {f : Field ρ κ} {vs : List κ}
    (place : p.postorder = before ++ .member f vs :: after)
    (first : ∀ n ∈ before, n.Fits maxBinds) (long : ¬Within maxBinds vs.length)
    (literals : p.literals = before.flatMap Node.values ++ (vs ++ after.flatMap Node.values)) :
    Refused maxBinds p binds (.tooManyBinds vs.length)
      (binds ++ (before.flatMap Node.values : List κ))

/-- Where some list does not fit, the walk ends at the first such list. -/
theorem refused_of_not_fits {maxBinds : Option Nat} {p : Predicate ρ κ}
    (h : ¬∀ vs ∈ p.lists, Within maxBinds vs.length) (binds : Array κ) :
    ∃ e binds', p.lower (backend maxBinds) binds = (.error e, binds') ∧
      Refused maxBinds p binds e binds' := by
  have hagree := (backend maxBinds).lower_agreement p [] binds []
  generalize p.lower (backend maxBinds) binds = outcome at hagree ⊢
  generalize p.lower (backend maxBinds).recorded (binds, []) = noted at hagree
  generalize hrun : (backend maxBinds).run p.postorder [] binds = run at hagree
  cases hagree with
  | finished text binds' calls =>
    obtain ⟨hanswers, hnodes⟩ := Backend.run_finished hrun
    have hfits := (binds_of_answers hanswers).2
    rw [hnodes] at hfits
    exact absurd (Predicate.fits_postorder_iff.1 hfits) h
  | refused e binds' calls =>
    obtain ⟨made, c, binds₁, rfl, hanswers, hlast, hnodes⟩ := Backend.run_refused hrun
    obtain ⟨rfl, hfits⟩ := binds_of_answers hanswers
    have hnot : ¬c.node.Fits maxBinds := by
      intro hc
      obtain ⟨text, hbound⟩ := answer_of_fits hc (binds ++ (made.map Call.node).flatMap Node.values)
      rw [hlast] at hbound
      cases hbound
    obtain ⟨f, vs, hnode, hrefused⟩ := answer_of_not_fits hnot
      (binds ++ (made.map Call.node).flatMap Node.values)
    rw [hlast] at hrefused
    cases hrefused
    obtain ⟨after, hafter⟩ := hnodes
    have hplace : p.postorder = made.map Call.node ++ .member f vs :: after := by
      rw [← hafter, List.map_append, List.map_singleton, hnode, List.append_assoc]
      rfl
    have hliterals := p.flatMap_values_postorder
    rw [hplace, List.flatMap_append, List.flatMap_cons] at hliterals
    rw [hnode] at hnot
    exact ⟨_, _, rfl, .tooLong hplace hfits hnot hliterals.symm⟩

/-- A list that is too long is refused at once, also under a negation. -/
theorem lower_list_of_not_within {maxBinds : Option Nat} {field : Field ρ κ} {vs : List κ}
    (h : ¬Within maxBinds vs.length) (m : Membership) (n : Nat) (binds : Array κ) :
    (Filter.orient m (.fallback n) (.member field vs)).lower (backend maxBinds) binds =
      (.error (.tooManyBinds vs.length), binds) := by
  have hlist := member_of_not_within h field binds
  cases m with
  | included => exact hlist
  | excluded => exact Action.bind_error hlist

end Sql

theorem Predicate.AsksOnly.lists_eq_nil {field : Field ρ κ} {t : Predicate ρ κ}
    (h : t.AsksOnly field) : t.lists = [] := by
  induction h with
  | equals v => rfl
  | disj left right ihl ihr => rw [lists, ihl, ihr, List.append_nil]

namespace Filter

variable [BEq κ]

/-- Only on the path of the native list is there a list, and it holds the values of the set. -/
theorem Builds.of_mem_lists {f : Filter} {field : Field ρ κ} {c : Candidates κ} {path : Path}
    {q : Predicate ρ κ} (h : Builds f field c path q) {m : Membership} {vs : List κ}
    (hvs : vs ∈ (orient m path q).lists) : (∃ n, path = .fallback n) ∧ vs = c.values := by
  cases h with
  | empty nil => cases m <;> cases hvs
  | fallback many => cases m <;> exact ⟨⟨_, rfl⟩, List.mem_singleton.1 hvs⟩
  | tree nonempty few held joined =>
    have hnone := joined.of_equals.1.lists_eq_nil
    cases m <;> simp [orient, Predicate.lists, hnone] at hvs

/-- What was built is refused if it is a list that is too long, and is lowered otherwise. -/
theorem Builds.lower_cases {f : Filter} {field : Field ρ κ} {c : Candidates κ} {path : Path}
    {q : Predicate ρ κ} (h : Builds f field c path q) (maxBinds : Option Nat) (m : Membership)
    (binds : Array κ) :
    (((∃ n, path = .fallback n) ∧ ¬Sql.Within maxBinds c.size) ∧
      (orient m path q).lower (Sql.backend maxBinds) binds =
        (.error (.tooManyBinds c.size), binds)) ∨
    ((¬((∃ n, path = .fallback n) ∧ ¬Sql.Within maxBinds c.size)) ∧
      (orient m path q).lower (Sql.backend maxBinds) binds =
        (.ok (Piece.assemble binds.size (orient m path q).pieces),
          binds ++ (orient m path q).literals)) := by
  by_cases hlong : (∃ n, path = .fallback n) ∧ ¬Sql.Within maxBinds c.size
  · left
    refine ⟨hlong, ?_⟩
    obtain ⟨⟨n, rfl⟩, hlong⟩ := hlong
    cases h with
    | fallback many => exact Sql.lower_list_of_not_within hlong m c.size binds
  · right
    refine ⟨hlong, Sql.lower_of_fits ?_ binds⟩
    intro vs hvs
    obtain ⟨hlist, rfl⟩ := h.of_mem_lists hvs
    by_contra hlarge
    exact hlong ⟨hlist, hlarge⟩

/-- The literals of a tree are the values of the set and then the copies that fill it up. -/
theorem Builds.literals_tree {f : Filter} {field : Field ρ κ} {c : Candidates κ} {bucket : Nat}
    {q : Predicate ρ κ} (h : Builds f field c (.tree bucket) q) (m : Membership) :
    ∃ first, c.values.head? = some first ∧
      (orient m (.tree bucket) q).literals =
        c.values ++ List.replicate (bucket - c.size) first := by
  have hliterals := h.literals_orient m
  cases h with
  | tree nonempty few held joined =>
    obtain ⟨first, rest, hv, -⟩ := Candidates.exists_cons nonempty
    have hfirst : c.values.head? = some first := by rw [hv, List.head?_cons]
    exact ⟨first, hfirst, hliterals.trans (Candidates.padded_eq hfirst _)⟩

end Filter

/-- Literals, binds and numbers stay in line. A predicate is lowered exactly if none of its lists is
longer than the limit. Then its literals, one for each leaf and as many as its lists hold, are
bound behind the earlier binds in their order, and each of them is shown by the number of its bind.
Else the first list that is too long is refused, and the literals left of it have been bound. So a
compiled predicate is refused exactly if it is a list of more values than the limit, which leaves
the binds as they were, and a tree binds the different candidates and copies of the first one. -/
theorem Predicate.literals_bound_in_order [BEq κ] [Hashable κ] [EquivBEq κ] [LawfulHashable κ]
    (maxBinds : Option Nat) :
    (∀ p : Predicate ρ κ, p.literals.length = p.leafCount + (p.lists.map List.length).sum ∧
      ∀ binds : Array κ,
        ((∃ text binds', p.lower (Sql.backend maxBinds) binds = (.ok text, binds')) ↔
          ∀ vs ∈ p.lists, ∀ limit ∈ maxBinds, vs.length ≤ limit) ∧
        (∀ text binds', p.lower (Sql.backend maxBinds) binds = (.ok text, binds') →
          Sql.Bound p binds text binds') ∧
        ∀ e binds', p.lower (Sql.backend maxBinds) binds = (.error e, binds') →
          Sql.Refused maxBinds p binds e binds') ∧
    ∀ (f : Filter) (m : Membership) (field : Field ρ κ) (values : List κ) (p : Predicate ρ κ),
      (f.compile m field values).outcome = .ok p → ∀ binds : Array κ,
        ((∃ e binds', p.lower (Sql.backend maxBinds) binds = (.error e, binds')) ↔
          (∃ n, .compiled m (.fallback n) ∈ (f.compile m field values).events) ∧
            ∃ limit ∈ maxBinds, limit < values.eraseDups.length) ∧
        (∀ e binds', p.lower (Sql.backend maxBinds) binds = (.error e, binds') → binds' = binds) ∧
        ∀ bucket, .compiled m (.tree bucket) ∈ (f.compile m field values).events →
          ∃ first text, values.eraseDups.head? = some first ∧
            p.lower (Sql.backend maxBinds) binds = (.ok text, binds ++ (values.eraseDups ++
              List.replicate (bucket - values.eraseDups.length) first : List κ)) := by
  constructor
  · intro p
    refine ⟨p.length_literals, fun binds => ?_⟩
    by_cases h : ∀ vs ∈ p.lists, Sql.Within maxBinds vs.length
    · obtain ⟨text, binds', hl, hbound⟩ := Sql.bound_of_fits h binds
      simp only [hl]
      refine ⟨⟨fun _ => h, fun _ => ⟨_, _, rfl⟩⟩, ?_, ?_⟩
      · rintro text' binds'' ⟨⟩
        exact hbound
      · rintro e binds'' ⟨⟩
    · obtain ⟨e, binds', hl, hrefused⟩ := Sql.refused_of_not_fits h binds
      simp only [hl]
      refine ⟨⟨?_, fun hfits => absurd hfits h⟩, ?_, ?_⟩
      · rintro ⟨text, binds'', ⟨⟩⟩
      · rintro text binds'' ⟨⟩
      · rintro e' binds'' ⟨⟩
        exact hrefused
  · intro f m field values p hp binds
    obtain ⟨q, hb, rfl, hpath⟩ := Filter.builds_of_compile hp
    have hlist : (∃ n, .compiled m (.fallback n) ∈ (f.compile m field values).events) ↔
        ∃ n, f.path (distinct values).length = .fallback n :=
      exists_congr fun n => (hpath (.fallback n)).trans eq_comm
    rw [hlist, ← distinct_eq_eraseDups, ← Sql.not_within_iff]
    obtain ⟨hlong, hl⟩ | ⟨hshort, hl⟩ := hb.lower_cases maxBinds m binds
    · simp only [hl]
      refine ⟨⟨fun _ => hlong, fun _ => ⟨_, _, rfl⟩⟩, ?_, ?_⟩
      · rintro e binds' ⟨⟩
        rfl
      · intro bucket hbucket
        obtain ⟨⟨n, hn⟩, -⟩ := hlong
        rw [← (hpath _).1 hbucket] at hn
        cases hn
    · simp only [hl]
      refine ⟨⟨?_, fun hlong => absurd hlong hshort⟩, ?_, ?_⟩
      · rintro ⟨e, binds', ⟨⟩⟩
      · rintro e binds' ⟨⟩
      · intro bucket hbucket
        rw [← (hpath _).1 hbucket] at hb ⊢
        obtain ⟨first, hfirst, hliterals⟩ := hb.literals_tree m
        rw [hliterals]
        exact ⟨first, _, hfirst, rfl⟩

/-- A leaf, a list of two values and a negated leaf behind two binds: the second value of the list
is shown by the number five, and where lists of two values are too long the first leaf alone is
bound. Of three candidates a native list binds nothing if it is refused, and a tree binds four
values. -/
theorem Predicate.literals_bound_in_order_two_and_four :
    let p : Predicate Nat Nat := disj (equals ⟨"k", id⟩ 5)
      (disj (member ⟨"m", id⟩ [6, 7]) (neg (equals ⟨"k", id⟩ 8)))
    (∃ binds', p.lower (Sql.backend (some 2)) #[1, 2] =
        (.ok "(k = $3 OR (m IN ($4, $5) OR NOT k = $6))", binds') ∧
      binds' = #[1, 2] ++ [5, 6, 7, 8] ∧ binds'[4]? = some 7) ∧
    (∃ binds', p.lower (Sql.backend (some 1)) #[1, 2] = (.error (.tooManyBinds 2), binds') ∧
      Sql.Refused (some 1) p #[1, 2] (.tooManyBinds 2) binds') ∧
    (∃ q e binds',
      ((⟨1, .exact⟩ : Filter).compile .excluded (⟨"k", id⟩ : Field Nat Nat) [3, 1, 3]).outcome =
        .ok q ∧
      q.lower (Sql.backend (some 1)) #[0] = (.error e, binds') ∧ binds' = #[0]) ∧
    ∃ q text,
      ((⟨2, .constant 4⟩ : Filter).compile .excluded (⟨"k", id⟩ : Field Nat Nat)
        [3, 1, 3]).outcome = .ok q ∧
      q.lower (Sql.backend (some 1)) #[0] = (.ok text, #[0] ++ [3, 1, 3, 3]) := by
  intro p
  obtain ⟨htwo, -⟩ := literals_bound_in_order (ρ := Nat) (κ := Nat) (some 2)
  obtain ⟨hone, hcompiled⟩ := literals_bound_in_order (ρ := Nat) (κ := Nat) (some 1)
  have hd : distinct [3, 1, 3] = [3, 1] := by simp [distinct, distinctFrom]
  refine ⟨?_, ?_, ?_, ?_⟩
  · have hl : p.lower (Sql.backend (some 2)) #[1, 2] =
        (.ok "(k = $3 OR (m IN ($4, $5) OR NOT k = $6))", #[1, 2, 5, 6, 7, 8]) := by cbv
    have hbound := ((htwo p).2 #[1, 2]).2.1 _ _ hl
    obtain ⟨i, rfl, -, hbind, -⟩ := hbound.numbered
      [.words "(", .words "k = ", .literal 5, .words " OR ", .words "(", .words "m IN (",
        .literal 6, .words ", "] 7 _ rfl
    exact ⟨_, hl, hbound.appended, hbind⟩
  · have hl : p.lower (Sql.backend (some 1)) #[1, 2] =
        (.error (.tooManyBinds 2), #[1, 2, 5]) := by cbv
    exact ⟨_, hl, ((hone p).2 #[1, 2]).2.2 _ _ hl⟩
  · have hc : (⟨1, .exact⟩ : Filter).compile .excluded (⟨"k", id⟩ : Field Nat Nat) [3, 1, 3] =
        ⟨.ok (.neg (.member ⟨"k", id⟩ [3, 1])),
          [.deduplicated 3 2, .compiled .excluded (.fallback 2)],
          [.compiled .excluded "k" 3 (.fallback 2)]⟩ := by
      simp only [Filter.compile, Candidates.ofList, hd]
      cbv
    have hq := congrArg Traced.outcome hc
    obtain ⟨hrefused, hsame, -⟩ := hcompiled _ _ _ _ _ hq #[0]
    obtain ⟨e, binds', hl⟩ := hrefused.2 ⟨⟨2, by rw [hc]; simp⟩, 1, rfl, by decide⟩
    exact ⟨_, e, binds', hq, hl, hsame e binds' hl⟩
  · have hc : (⟨2, .constant 4⟩ : Filter).compile .excluded (⟨"k", id⟩ : Field Nat Nat) [3, 1, 3] =
        ⟨.ok (.neg (.disj (.disj (.equals ⟨"k", id⟩ 3) (.equals ⟨"k", id⟩ 1))
          (.disj (.equals ⟨"k", id⟩ 3) (.equals ⟨"k", id⟩ 3)))),
          [.deduplicated 3 2, .treeBuilt 4, .compiled .excluded (.tree 4)],
          [.padded 2 4, .compiled .excluded "k" 3 (.tree 4)]⟩ := by
      simp only [Filter.compile, Candidates.ofList, hd]
      cbv
    have hq := congrArg Traced.outcome hc
    obtain ⟨-, -, htree⟩ := hcompiled _ _ _ _ _ hq #[0]
    obtain ⟨first, text, hfirst, hl⟩ := htree 4 (by rw [hc]; simp)
    obtain rfl : 3 = first := Option.some.inj hfirst
    exact ⟨_, text, hq, hl⟩

end PlanShape
