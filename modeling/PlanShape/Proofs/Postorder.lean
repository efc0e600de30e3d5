import PlanShape.Lowering.Backend
import PlanShape.Predicate.Leaves

/-!
Lowering as a run over nodes in postorder. A machine with a stack of operands takes the nodes of a
predicate one after the other, makes one callback for each of them, and halts at the first that is
refused. The walk over the predicate makes the same callbacks with the same operands, and it ends
with the same result in the same state.
-/
namespace PlanShape

/-- One node of a predicate, without what stands below it. -/
inductive Node (ρ κ : Type) where
  | always
  | never
  | equals (field : Field ρ κ) (value : κ)
  | disj
  | neg
  | member (field : Field ρ κ) (values : List κ)

/-- A callback and the operands that it is given. -/
inductive Call (ω ρ κ : Type) where
  | always
  | never
  | equals (field : Field ρ κ) (value : κ)
  | disj (left right : ω)
  | neg (inner : ω)
  | member (field : Field ρ κ) (values : List κ)

/-- How a run over a list of nodes ends. -/
inductive Halt (ε ω : Type) where
  | finished (stack : List ω)
  | refused (error : ε)
  | stuck

/-- The end of a run, the state that it leaves and the callbacks that were made. -/
structure Run (σ ε ω ρ κ : Type) where
  halt : Halt ε ω
  state : σ
  calls : List (Call ω ρ κ)

variable {σ ε ω ρ κ : Type}

/-- The nodes of a predicate, operands before the node above them, and the left one first. -/
def Predicate.postorder : Predicate ρ κ → List (Node ρ κ)
  | .always => [.always]
  | .never => [.never]
  | .equals f v => [.equals f v]
  | .disj p q => p.postorder ++ (q.postorder ++ [.disj])
  | .neg p => p.postorder ++ [.neg]
  | .member f vs => [.member f vs]

theorem Predicate.length_postorder (p : Predicate ρ κ) : p.postorder.length = p.nodeCount := by
  induction p with
  | always | never | equals | member => rfl
  | disj p q ihp ihq => simp [postorder, nodeCount, ihp, ihq]; omega
  | neg p ih => simp [postorder, nodeCount, ih]

/-- The node for which a callback is made. -/
def Call.node : Call ω ρ κ → Node ρ κ
  | .always => .always
  | .never => .never
  | .equals f v => .equals f v
  | .disj _ _ => .disj
  | .neg _ => .neg
  | .member f vs => .member f vs

/-- The callback for a node over a stack with its top first, and the operands that stay. -/
def Node.call? : Node ρ κ → List ω → Option (Call ω ρ κ × List ω)
  | .always, stack => some (.always, stack)
  | .never, stack => some (.never, stack)
  | .equals f v, stack => some (.equals f v, stack)
  | .disj, right :: left :: stack => some (.disj left right, stack)
  | .neg, inner :: stack => some (.neg inner, stack)
  | .member f vs, stack => some (.member f vs, stack)
  | .disj, _ | .neg, _ => none

theorem Node.node_of_call? {n : Node ρ κ} {stack rest : List ω} {c : Call ω ρ κ}
    (h : n.call? stack = some (c, rest)) : c.node = n := by
  unfold call? at h
  split at h
  all_goals cases h
  all_goals rfl

/-- Go on after a run that has finished; the callbacks of both parts follow each other. -/
def Run.resume (r : Run σ ε ω ρ κ) (next : List ω → σ → Run σ ε ω ρ κ) : Run σ ε ω ρ κ :=
  match r.halt with
  | .finished stack =>
    let r' := next stack r.state
    ⟨r'.halt, r'.state, r.calls ++ r'.calls⟩
  | .refused _ | .stuck => r

theorem Run.resume_finished_eq_iff {stack : List ω} {s s' : σ} {cs calls : List (Call ω ρ κ)}
    {next : List ω → σ → Run σ ε ω ρ κ} {halt : Halt ε ω} :
    (⟨.finished stack, s, cs⟩ : Run σ ε ω ρ κ).resume next = ⟨halt, s', calls⟩ ↔
      ∃ cs', next stack s = ⟨halt, s', cs'⟩ ∧ cs ++ cs' = calls := by
  simp only [resume, Run.mk.injEq]
  constructor
  · rintro ⟨rfl, rfl, rfl⟩
    exact ⟨_, rfl, rfl⟩
  · rintro ⟨cs', h, rfl⟩
    simp [h]

theorem Run.resume_assoc (r : Run σ ε ω ρ κ) (f g : List ω → σ → Run σ ε ω ρ κ) :
    (r.resume f).resume g = r.resume fun stack s => (f stack s).resume g := by
  obtain ⟨halt, state, calls⟩ := r
  cases halt with
  | finished stack =>
    simp only [resume]
    cases h : (f stack state).halt <;> simp [h]
  | refused | stuck => rfl

namespace Backend

/-- Make a callback. -/
def answer (b : Backend σ ε ω ρ κ) : Call ω ρ κ → Action σ ε ω
  | .always => b.always
  | .never => b.never
  | .equals f v => b.equals f v
  | .disj l r => b.disj l r
  | .neg p => b.neg p
  | .member f vs => b.member f vs

/-- The backend that answers callbacks in a given way. -/
def ofAnswer (act : Call ω ρ κ → Action σ ε ω) : Backend σ ε ω ρ κ where
  always := act .always
  never := act .never
  equals f v := act (.equals f v)
  disj l r := act (.disj l r)
  neg p := act (.neg p)
  member f vs := act (.member f vs)

/-- The backend that answers as before and notes every callback with its operands. -/
def recorded (b : Backend σ ε ω ρ κ) : Backend (σ × List (Call ω ρ κ)) ε ω ρ κ :=
  ofAnswer fun c s =>
    let (result, state) := b.answer c s.1
    (result, (state, s.2 ++ [c]))

/-- The callback for one node: its output goes onto the stack in place of its operands. -/
def step (b : Backend σ ε ω ρ κ) (n : Node ρ κ) (stack : List ω) (s : σ) : Run σ ε ω ρ κ :=
  match n.call? stack with
  | none => ⟨.stuck, s, []⟩
  | some (c, rest) =>
    match b.answer c s with
    | (.ok x, s') => ⟨.finished (x :: rest), s', [c]⟩
    | (.error e, s') => ⟨.refused e, s', [c]⟩

/-- One step for each node, until there are no more nodes or a step does not finish. -/
def run (b : Backend σ ε ω ρ κ) : List (Node ρ κ) → List ω → σ → Run σ ε ω ρ κ
  | [], stack, s => ⟨.finished stack, s, []⟩
  | n :: ns, stack, s => (b.step n stack s).resume (b.run ns)

theorem run_append (b : Backend σ ε ω ρ κ) (ns ms : List (Node ρ κ)) (stack : List ω) (s : σ) :
    b.run (ns ++ ms) stack s = (b.run ns stack s).resume (b.run ms) := by
  induction ns generalizing stack s with
  | nil => simp [run, Run.resume]
  | cons n ns ih =>
    -- the rest of the run starts from a stack and a state that only the first step names
    have hrest : b.run (ns ++ ms) = fun stack s => (b.run ns stack s).resume (b.run ms) := by
      funext stack s
      exact ih stack s
    rw [List.cons_append, run, run, Run.resume_assoc, hrest]

theorem run_singleton (b : Backend σ ε ω ρ κ) (n : Node ρ κ) (stack : List ω) (s : σ) :
    b.run [n] stack s = b.step n stack s := by
  rw [run]
  obtain ⟨halt, state, calls⟩ := b.step n stack s
  cases halt with
  | finished stack => simp [Run.resume, run]
  | refused | stuck => rfl

/-- Callbacks that are all answered, one after the other, and lead from one state to another. -/
inductive Answers (b : Backend σ ε ω ρ κ) : σ → List (Call ω ρ κ) → σ → Prop where
  | none (s : σ) : Answers b s [] s
  | next {s s₁ s' : σ} {c : Call ω ρ κ} {cs : List (Call ω ρ κ)} {x : ω}
    (first : b.answer c s = (.ok x, s₁)) (rest : Answers b s₁ cs s') : Answers b s (c :: cs) s'

/-- A step is stuck without a callback, or it makes one for its node and ends as that one does. -/
theorem step_cases (b : Backend σ ε ω ρ κ) (n : Node ρ κ) (stack : List ω) (s : σ) :
    b.step n stack s = ⟨.stuck, s, []⟩ ∨
    (∃ c rest x s', c.node = n ∧ b.answer c s = (.ok x, s') ∧
      b.step n stack s = ⟨.finished (x :: rest), s', [c]⟩) ∨
    ∃ c e s', c.node = n ∧ b.answer c s = (.error e, s') ∧
      b.step n stack s = ⟨.refused e, s', [c]⟩ := by
  unfold step
  cases hc : n.call? stack with
  | none => exact .inl rfl
  | some call =>
    obtain ⟨c, rest⟩ := call
    have hnode := Node.node_of_call? hc
    right
    rcases ha : b.answer c s with ⟨e | x, s'⟩
    · right
      exact ⟨c, e, s', hnode, ha, by simp only [ha]⟩
    · left
      exact ⟨c, rest, x, s', hnode, ha, by simp only [ha]⟩

/-- A run that finishes has made one callback for each node, and all were answered. -/
theorem run_finished {b : Backend σ ε ω ρ κ} {ns : List (Node ρ κ)} {stack out : List ω} {s s' : σ}
    {calls : List (Call ω ρ κ)} (h : b.run ns stack s = ⟨.finished out, s', calls⟩) :
    b.Answers s calls s' ∧ calls.map Call.node = ns := by
  induction ns generalizing stack s calls with
  | nil =>
    cases h
    exact ⟨.none _, rfl⟩
  | cons n ns ih =>
    rw [run] at h
    obtain hs | ⟨c, rest, x, s₁, hnode, ha, hs⟩ | ⟨c, e, s₁, hnode, ha, hs⟩ :=
      b.step_cases n stack s
    · rw [hs] at h
      cases h
    · rw [hs, Run.resume_finished_eq_iff] at h
      obtain ⟨cs, hrest, rfl⟩ := h
      obtain ⟨hanswers, hnodes⟩ := ih hrest
      exact ⟨.next ha hanswers, by simp [hnode, hnodes]⟩
    · rw [hs] at h
      cases h

/-- A run that is refused has made callbacks for the first nodes. All but the last of them were
answered, and the last one gave the error and left the state. -/
theorem run_refused {b : Backend σ ε ω ρ κ} {ns : List (Node ρ κ)} {stack : List ω} {s s' : σ}
    {e : ε} {calls : List (Call ω ρ κ)} (h : b.run ns stack s = ⟨.refused e, s', calls⟩) :
    ∃ made c s₁, calls = made ++ [c] ∧ b.Answers s made s₁ ∧ b.answer c s₁ = (.error e, s') ∧
      calls.map Call.node <+: ns := by
  induction ns generalizing stack s calls with
  | nil => cases h
  | cons n ns ih =>
    rw [run] at h
    obtain hs | ⟨c, rest, x, s₁, hnode, ha, hs⟩ | ⟨c, e', s₁, hnode, ha, hs⟩ :=
      b.step_cases n stack s
    · rw [hs] at h
      cases h
    · rw [hs, Run.resume_finished_eq_iff] at h
      obtain ⟨cs, hrest, rfl⟩ := h
      obtain ⟨made, last, s₂, rfl, hanswers, hlast, hnodes⟩ := ih hrest
      refine ⟨c :: made, last, s₂, rfl, .next ha hanswers, hlast, ?_⟩
      simpa [hnode] using hnodes
    · rw [hs] at h
      cases h
      exact ⟨[], c, s, rfl, .none s, ha, by simp [hnode]⟩

/-- A walk, the same walk with its callbacks noted, and a run: they end alike and in one state, the
run with the output of the walks on top of its stack, and make the same callbacks. -/
inductive Agreement (stack : List ω) (noted : List (Call ω ρ κ)) :
    Except ε ω × σ → Except ε ω × (σ × List (Call ω ρ κ)) → Run σ ε ω ρ κ → Prop where
  | finished (x : ω) (s : σ) (cs : List (Call ω ρ κ)) :
    Agreement stack noted (.ok x, s) (.ok x, (s, noted ++ cs)) ⟨.finished (x :: stack), s, cs⟩
  | refused (e : ε) (s : σ) (cs : List (Call ω ρ κ)) :
    Agreement stack noted (.error e, s) (.error e, (s, noted ++ cs)) ⟨.refused e, s, cs⟩

/-- One callback agrees with the step for its node. -/
theorem agreement_of_call (b : Backend σ ε ω ρ κ) {c : Call ω ρ κ} {stack rest : List ω} (s : σ)
    (noted : List (Call ω ρ κ)) (h : c.node.call? stack = some (c, rest)) :
    Agreement rest noted (b.answer c s) (b.recorded.answer c (s, noted))
      (b.run [c.node] stack s) := by
  have hrecorded : b.recorded.answer c (s, noted) =
      ((b.answer c s).1, ((b.answer c s).2, noted ++ [c])) := by
    cases c <;> rfl
  rw [hrecorded, run_singleton, step, h]
  rcases ha : b.answer c s with ⟨e | x, s'⟩
  · simp only [ha]
    exact .refused e s' [c]
  · simp only [ha]
    exact .finished x s' [c]

/-- Two parts in a row: the second one starts from what the first one leaves, and the operands of
the second one stand on those of the first. -/
theorem Agreement.bind {b : Backend σ ε ω ρ κ} {ns ms : List (Node ρ κ)} {stack below : List ω}
    {noted : List (Call ω ρ κ)} {s : σ} {x : Action σ ε ω}
    {x' : Action (σ × List (Call ω ρ κ)) ε ω} {f : ω → Action σ ε ω}
    {f' : ω → Action (σ × List (Call ω ρ κ)) ε ω}
    (first : Agreement stack noted (x s) (x' (s, noted)) (b.run ns stack s))
    (next : ∀ a s₁ cs, Agreement below (noted ++ cs) (f a s₁) (f' a (s₁, noted ++ cs))
      (b.run ms (a :: stack) s₁)) :
    Agreement below noted ((x >>= f) s) ((x' >>= f') (s, noted)) (b.run (ns ++ ms) stack s) := by
  rw [run_append]
  -- the three descriptions of the first part are taken apart together
  generalize hx : x s = w at first
  generalize hx' : x' (s, noted) = w' at first
  generalize b.run ns stack s = r at first
  cases first with
  | finished a s₁ cs =>
    rw [Action.bind_ok hx, Action.bind_ok hx', Run.resume]
    have hnext := next a s₁ cs
    generalize f a s₁ = w at hnext
    generalize f' a (s₁, noted ++ cs) = w' at hnext
    simp only
    generalize b.run ms (a :: stack) s₁ = r at hnext
    cases hnext with
    | finished y s₂ cs' =>
      rw [List.append_assoc]
      exact .finished y s₂ (cs ++ cs')
    | refused e s₂ cs' =>
      rw [List.append_assoc]
      exact .refused e s₂ (cs ++ cs')
  | refused e s₁ cs =>
    rw [Action.bind_error hx, Action.bind_error hx']
    exact .refused e s₁ cs

theorem lower_agreement (b : Backend σ ε ω ρ κ) (p : Predicate ρ κ) (stack : List ω) (s : σ)
    (noted : List (Call ω ρ κ)) :
    Agreement stack noted (p.lower b s) (p.lower b.recorded (s, noted))
      (b.run p.postorder stack s) := by
  induction p generalizing stack s noted with
  | always => exact b.agreement_of_call (c := .always) s noted rfl
  | never => exact b.agreement_of_call (c := .never) s noted rfl
  | equals f v => exact b.agreement_of_call (c := .equals f v) s noted rfl
  | member f vs => exact b.agreement_of_call (c := .member f vs) s noted rfl
  | disj p q ihp ihq =>
    -- the left output waits on the stack while the right operand is lowered above it
    apply (ihp stack s noted).bind
    intro left s₁ cs
    apply (ihq (left :: stack) s₁ (noted ++ cs)).bind
    intro right s₂ cs'
    exact b.agreement_of_call (c := .disj left right) s₂ _ rfl
  | neg p ih =>
    apply (ih stack s noted).bind
    intro inner s₁ cs
    exact b.agreement_of_call (c := .neg inner) s₁ _ rfl

/-- Callbacks as operations on truth values over one record. -/
def truth [BEq κ] (r : ρ) : Backend σ ε Bool ρ κ where
  always := pure true
  never := pure false
  equals f v := pure (f.read r == v)
  disj l r := pure (l || r)
  neg p := pure !p
  member f vs := pure (vs.any (· == f.read r))

theorem lower_truth [BEq κ] (p : Predicate ρ κ) (r : ρ) (s : σ) :
    p.lower (truth (ε := ε) r) s = (.ok (p.holds r), s) := by
  induction p generalizing s with
  | always | never | equals | member => rfl
  | disj p q ihp ihq => rw [Predicate.lower, Action.bind_ok (ihp s), Action.bind_ok (ihq s)]; rfl
  | neg p ih => rw [Predicate.lower, Action.bind_ok (ih s)]; rfl

end Backend

/-- Lowering is a run over the nodes in postorder. Either every callback is answered: then there is
one for each node, and the one operand that is left is the output. Or the run stops at the first
callback that is refused: then its error is the outcome, its state is the last one, and no callback
is made for a later node. With truth values for outputs lowering decides whether the predicate
holds, and it makes the callbacks for all nodes, also for those that do not matter any more. -/
theorem Predicate.lower_eq_postorder_run [BEq κ] (p : Predicate ρ κ) :
    (∀ (b : Backend σ ε ω ρ κ) (s : σ),
      (∃ x s' calls, p.lower b s = (.ok x, s') ∧ p.lower b.recorded (s, []) = (.ok x, (s', calls)) ∧
        b.run p.postorder [] s = ⟨.finished [x], s', calls⟩ ∧
        b.Answers s calls s' ∧ calls.map Call.node = p.postorder ∧ calls.length = p.nodeCount) ∨
      ∃ e s' made c s₁, p.lower b s = (.error e, s') ∧
        p.lower b.recorded (s, []) = (.error e, (s', made ++ [c])) ∧
        b.run p.postorder [] s = ⟨.refused e, s', made ++ [c]⟩ ∧
        b.Answers s made s₁ ∧ b.answer c s₁ = (.error e, s') ∧
        (made ++ [c]).map Call.node <+: p.postorder) ∧
    ∀ (r : ρ) (s : σ), ∃ calls, p.lower (Backend.truth (ε := ε) r) s = (.ok (p.holds r), s) ∧
      p.lower (Backend.truth (ε := ε) r).recorded (s, []) = (.ok (p.holds r), (s, calls)) ∧
      calls.map Call.node = p.postorder := by
  constructor
  · intro b s
    have h := b.lower_agreement p [] s []
    generalize p.lower b s = w at h
    generalize p.lower b.recorded (s, []) = w' at h
    generalize hr : b.run p.postorder [] s = run at h
    cases h with
    | finished x s' calls =>
      left
      obtain ⟨hanswers, hnodes⟩ := Backend.run_finished hr
      have hcount : calls.length = p.nodeCount := by
        rw [← p.length_postorder, ← hnodes, List.length_map]
      exact ⟨x, s', calls, rfl, rfl, rfl, hanswers, hnodes, hcount⟩
    | refused e s' calls =>
      right
      obtain ⟨made, c, s₁, rfl, hanswers, hlast, hnodes⟩ := Backend.run_refused hr
      exact ⟨e, s', made, c, s₁, rfl, rfl, rfl, hanswers, hlast, hnodes⟩
  · intro r s
    have h := (Backend.truth (ε := ε) r).lower_agreement p [] s []
    rw [Backend.lower_truth] at h ⊢
    generalize p.lower (Backend.truth r).recorded (s, []) = w' at h
    generalize hr : (Backend.truth r).run p.postorder [] s = run at h
    cases h with
    | finished x s' calls => exact ⟨calls, rfl, rfl, (Backend.run_finished hr).2⟩

end PlanShape
