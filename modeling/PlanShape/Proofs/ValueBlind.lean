import PlanShape.Lowering.Sql
import PlanShape.Proofs.Encoding

/-!
One plan for one shape. A backend is blind to values if its callbacks cannot tell fields of one name
or lists of one length apart. Two walks over predicates of one shape then make the same callbacks up
to literals, one after the other, and so they end with the same output or the same error. The SQL
text with numbered binds is such a backend, because it depends on the number of binds only.
-/
namespace PlanShape

variable {σ ε α β ω ρ κ : Type}

/-- Equal outputs in states related by `R`, or equal errors in states related by `Q`. -/
inductive EndsAlike (R Q : σ → σ → Prop) : Except ε α × σ → Except ε α × σ → Prop where
  | ok (a : α) {s t : σ} (related : R s t) : EndsAlike R Q (.ok a, s) (.ok a, t)
  | error (e : ε) {s t : σ} (related : Q s t) : EndsAlike R Q (.error e, s) (.error e, t)

theorem EndsAlike.result_eq {R Q : σ → σ → Prop} {x y : Except ε α × σ} (h : EndsAlike R Q x y) :
    x.1 = y.1 := by
  cases h with
  | ok a related => rfl
  | error e related => rfl

/-- If failures keep what successes keep, the last states are related however the actions end. -/
theorem EndsAlike.related {R : σ → σ → Prop} {x y : Except ε α × σ} (h : EndsAlike R R x y) :
    R x.2 y.2 := by
  cases h with
  | ok a related => exact related
  | error e related => exact related

/-- From related states the two actions end alike. -/
def Action.Alike (R Q : σ → σ → Prop) (x y : Action σ ε α) : Prop :=
  ∀ s t, R s t → EndsAlike R Q (x s) (y t)

/-- The second actions start in states that the first ones left related. -/
theorem Action.Alike.bind {R Q : σ → σ → Prop} {x y : Action σ ε α} {f g : α → Action σ ε β}
    (first : Alike R Q x y) (next : ∀ a, Alike R Q (f a) (g a)) :
    Alike R Q (x >>= f) (y >>= g) := by
  intro s t hst
  have hfirst := first s t hst
  generalize hx : x s = w at hfirst
  generalize hy : y t = w' at hfirst
  cases hfirst with
  | ok a related =>
    rw [Action.bind_ok hx, Action.bind_ok hy]
    exact next a _ _ related
  | error e related =>
    rw [Action.bind_error hx, Action.bind_error hy]
    exact .error e related

/-- Callbacks end alike for equal operands, for fields of one name and for lists of one length, and
literals do not count. Successes leave states related by `R` and failures states related by `Q`,
which may be `R` again, or no relation if nothing goes on after a failure. -/
structure Backend.ValueBlind (R Q : σ → σ → Prop) (b : Backend σ ε ω ρ κ) : Prop where
  always : Action.Alike R Q b.always b.always
  never : Action.Alike R Q b.never b.never
  equals : ∀ {f g : Field ρ κ} (v w : κ), f.name = g.name →
    Action.Alike R Q (b.equals f v) (b.equals g w)
  disj : ∀ l r, Action.Alike R Q (b.disj l r) (b.disj l r)
  neg : ∀ p, Action.Alike R Q (b.neg p) (b.neg p)
  member : ∀ {f g : Field ρ κ} {vs ws : List κ}, f.name = g.name → vs.length = ws.length →
    Action.Alike R Q (b.member f vs) (b.member g ws)

namespace Backend

theorem ValueBlind.lower {R Q : σ → σ → Prop} {b : Backend σ ε ω ρ κ} (hb : b.ValueBlind R Q)
    {p q : Predicate ρ κ} (h : p.SameShape q) : Action.Alike R Q (p.lower b) (q.lower b) := by
  induction h with
  | always => exact hb.always
  | never => exact hb.never
  | equals v w name => exact hb.equals v w name
  | disj left right ihl ihr =>
    apply ihl.bind
    intro l
    apply ihr.bind
    intro r
    exact hb.disj l r
  | neg inner ih =>
    apply ih.bind
    intro x
    exact hb.neg x
  | member name count => exact hb.member name count

/-- Noting callbacks and refusing one by its number shows no value. -/
theorem ValueBlind.audited {R Q : σ → σ → Prop} {b : Backend σ ε ω ρ κ} (hb : b.ValueBlind R Q)
    (hQ : ∀ s t, R s t → Q s t) (refuseAt : Option Nat) (refusal : Nat → ε) :
    (b.audited refuseAt refusal).ValueBlind
      (fun s t => R s.state t.state ∧ s.calls = t.calls)
      (fun s t => Q s.state t.state ∧ s.calls = t.calls) := by
  have hcall (h : Predicate.Head) {x y : Action σ ε ω} (hxy : Action.Alike R Q x y) :
      Action.Alike (fun s t : Audited σ => R s.state t.state ∧ s.calls = t.calls)
        (fun s t : Audited σ => Q s.state t.state ∧ s.calls = t.calls)
        (Audited.call refuseAt refusal h x) (Audited.call refuseAt refusal h y) := by
    rintro ⟨s, calls⟩ ⟨t, calls'⟩ ⟨hst, hcalls⟩
    obtain rfl : calls = calls' := hcalls
    simp only [Audited.call]
    split
    · exact .error _ ⟨hQ s t hst, rfl⟩
    · have hends := hxy s t hst
      generalize x s = w at hends
      generalize y t = w' at hends
      cases hends with
      | ok a related => exact .ok a ⟨related, rfl⟩
      | error e related => exact .error e ⟨related, rfl⟩
  exact {
    always := hcall _ hb.always
    never := hcall _ hb.never
    equals := fun v w name => hcall _ (hb.equals v w name)
    disj := fun l r => hcall _ (hb.disj l r)
    neg := fun p => hcall _ (hb.neg p)
    member := fun name count => hcall _ (hb.member name count) }

end Backend

namespace Sql

/-- Equally many binds, whatever they are. -/
def SameCount (binds binds' : Array κ) : Prop := binds.size = binds'.size

theorem alike_pure (text : String) :
    Action.Alike (SameCount (κ := κ)) SameCount (pure text : Action _ LoweringError _)
      (pure text) := by
  intro binds binds' h
  exact .ok text h

/-- The text shows the numbers of binds and the refusal shows the length of a list. -/
theorem backend_valueBlind (maxBinds : Option Nat) :
    (backend maxBinds : Backend (Array κ) LoweringError String ρ κ).ValueBlind
      SameCount SameCount where
  always := alike_pure _
  never := alike_pure _
  equals := by
    intro f g v w name binds binds' h
    have hcount : binds.size = binds'.size := h
    rw [equals_apply, equals_apply, name, hcount]
    apply EndsAlike.ok
    simpa [SameCount] using h
  disj l r := alike_pure _
  neg p := alike_pure _
  member := by
    intro f g vs ws name count binds binds' h
    have hcount : binds.size = binds'.size := h
    rw [member_apply, member_apply, name, hcount, count]
    split
    · exact .error _ h
    · apply EndsAlike.ok
      rw [SameCount, size_append_values, size_append_values, hcount, count]

end Sql

/-- Predicates that give one input to the digest have one plan. Every backend that is blind to
values ends alike on them, in related states. The SQL text with numbered binds is such a backend, so
from equally many binds it gives the same text for both or the same refusal, also if one of the
callbacks is refused from outside. -/
theorem Predicate.same_bytes_same_plan {p q : Predicate ρ κ} (hp : p.shape.Fits)
    (hq : q.shape.Fits) (h : p.signedBytes = q.signedBytes) :
    (∀ {σ ε ω : Type} (R Q : σ → σ → Prop) (b : Backend σ ε ω ρ κ), b.ValueBlind R Q →
      ∀ s t, R s t → EndsAlike R Q (p.lower b s) (q.lower b t)) ∧
    (∀ maxBinds, (Sql.backend maxBinds : Backend (Array κ) _ _ ρ κ).ValueBlind
      Sql.SameCount Sql.SameCount) ∧
    (∀ maxBinds (binds binds' : Array κ), binds.size = binds'.size →
      (p.lower (Sql.backend maxBinds) binds).1 = (q.lower (Sql.backend maxBinds) binds').1 ∧
      (p.lower (Sql.backend maxBinds) binds).2.size =
        (q.lower (Sql.backend maxBinds) binds').2.size) ∧
    ∀ maxBinds refuseAt, (p.toSql maxBinds refuseAt).1 = (q.toSql maxBinds refuseAt).1 ∧
      (p.toSql maxBinds refuseAt).2.calls = (q.toSql maxBinds refuseAt).2.calls := by
  have hshape : p.SameShape q := sameShape_iff.2 ((signedBytes_eq_iff hp hq).1 h)
  refine ⟨?_, Sql.backend_valueBlind, ?_, ?_⟩
  · intro σ ε ω R Q b hb
    exact hb.lower hshape
  · intro maxBinds binds binds' hcount
    have hends := (Sql.backend_valueBlind maxBinds).lower hshape binds binds' hcount
    exact ⟨hends.result_eq, hends.related⟩
  · intro maxBinds refuseAt
    have hblind := (Sql.backend_valueBlind (ρ := ρ) (κ := κ) maxBinds).audited
      (fun _ _ hst => hst) refuseAt Sql.LoweringError.refused
    have hends := hblind.lower hshape ⟨#[], #[]⟩ ⟨#[], #[]⟩ ⟨rfl, rfl⟩
    exact ⟨hends.result_eq, hends.related.2⟩

/-- A leaf and a list of two values: with other values, and after another bind, the text is the
same, and so is the refusal where only one value may be bound at a time. -/
theorem Predicate.same_bytes_same_plan_other_values :
    let p : Predicate Row Value := disj (equals (.slot "k" 0) (.int 1))
      (member (.slot "m" 1) [.int 2, .int 3])
    let q : Predicate Row Value := disj (equals (.slot "k" 0) .null)
      (member (.slot "m" 1) [.text "x", .text "x"])
    (p.toSql none none).1 = (q.toSql none none).1 ∧
    (q.toSql none none).1 = .ok "(k = $1 OR m IN ($2, $3))" ∧
    (p.lower (Sql.backend (some 1)) #[.bool true]).1 =
      (q.lower (Sql.backend (some 1)) #[.bool false]).1 ∧
    (q.lower (Sql.backend (some 1)) #[.bool false]).1 = .error (.tooManyBinds 2) ∧
    EndsAlike Sql.SameCount Sql.SameCount (p.lower (Sql.backend none) #[.bool true])
      (q.lower (Sql.backend none) #[.bool false]) := by
  intro p q
  have hfits : p.shape.Fits ∧ q.shape.Fits := by decide
  obtain ⟨hplan, hblind, hsql, htext⟩ := same_bytes_same_plan (p := p) (q := q) hfits.1 hfits.2 rfl
  refine ⟨(htext none none).1, by cbv, (hsql (some 1) _ _ rfl).1, by cbv, ?_⟩
  exact hplan Sql.SameCount Sql.SameCount (Sql.backend none) (hblind none) _ _ rfl

end PlanShape
