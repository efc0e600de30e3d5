import PlanShape.Padding.Policy
import PlanShape.Trace

/-!
Counters of what happened, and the report made from them. Every counter stops at the largest
count. The histogram holds, for each size to which sets were padded, how often that happened,
with the sizes in ascending order.
-/
namespace PlanShape

/-- Addition that stops at the largest count. -/
def addCapped (a b : Nat) : Nat := min (a + b) maxCount

/-- Numbers by ascending key. -/
@[ext] structure Histogram where
  entries : List (Nat × Nat)
  ascending : entries.Pairwise fun a b => a.1 < b.1
  deriving DecidableEq, Repr

namespace Histogram

def empty : Histogram := ⟨[], .nil⟩

/-- The entries with the number of one key replaced. -/
def insertEntry (k v : Nat) : List (Nat × Nat) → List (Nat × Nat)
  | [] => [(k, v)]
  | (k', v') :: rest =>
    if k < k' then (k, v) :: (k', v') :: rest
    else if k = k' then (k, v) :: rest
    else (k', v') :: insertEntry k v rest

theorem mem_insertEntry {k v : Nat} {es : List (Nat × Nat)} {e : Nat × Nat}
    (h : e ∈ insertEntry k v es) : e = (k, v) ∨ e ∈ es := by
  induction es with
  | nil => simpa [insertEntry] using h
  | cons a rest ih =>
    obtain ⟨k', v'⟩ := a
    simp only [insertEntry] at h
    split at h
    · simpa using h
    · split at h
      · rcases List.mem_cons.1 h with h | h
        · exact .inl h
        · exact .inr (List.mem_cons_of_mem _ h)
      · rcases List.mem_cons.1 h with h | h
        · exact .inr (h ▸ List.mem_cons_self)
        · exact (ih h).imp id (List.mem_cons_of_mem _)

theorem ascending_insertEntry {k v : Nat} {es : List (Nat × Nat)}
    (h : es.Pairwise fun a b => a.1 < b.1) :
    (insertEntry k v es).Pairwise fun a b => a.1 < b.1 := by
  induction es with
  | nil => simp [insertEntry]
  | cons a rest ih =>
    obtain ⟨k', v'⟩ := a
    obtain ⟨hfirst, hrest⟩ := List.pairwise_cons.1 h
    simp only [insertEntry]
    split
    · next hlt =>
      refine List.pairwise_cons.2 ⟨fun e he => ?_, h⟩
      rcases List.mem_cons.1 he with rfl | he
      · exact hlt
      · exact Nat.lt_trans hlt (hfirst e he)
    · next hle =>
      split
      · next heq => exact List.pairwise_cons.2 ⟨fun e he => heq ▸ hfirst e he, hrest⟩
      · next hne =>
        refine List.pairwise_cons.2 ⟨fun e he => ?_, ih hrest⟩
        rcases mem_insertEntry he with rfl | he
        · simp only; omega
        · exact hfirst e he

/-- Set the number of one key. -/
def insert (h : Histogram) (k v : Nat) : Histogram :=
  ⟨insertEntry k v h.entries, ascending_insertEntry h.ascending⟩

/-- The number of a key, zero if it never occurred. -/
def count (h : Histogram) (k : Nat) : Nat := (h.entries.lookup k).getD 0

theorem lookup_insertEntry (k v j : Nat) (es : List (Nat × Nat)) :
    (insertEntry k v es).lookup j = if j = k then some v else es.lookup j := by
  induction es with
  | nil =>
    by_cases h : j = k
    · simp [insertEntry, h]
    · simp [insertEntry, List.lookup_cons, h, show (j == k) = false by simpa using h]
  | cons a rest ih =>
    obtain ⟨k', v'⟩ := a
    simp only [insertEntry]
    by_cases hj : j = k
    · subst hj
      split
      · simp
      · split
        · simp
        · next hne => simp [List.lookup_cons, ih, show (j == k') = false by simpa using hne]
    · have hne : (j == k) = false := by simpa using hj
      split
      · simp [List.lookup_cons, hne]
      · split
        · next heq => subst heq; simp [List.lookup_cons, hne]
        · simp [List.lookup_cons, ih, hj]

@[simp] theorem count_insert (h : Histogram) (k v j : Nat) :
    (h.insert k v).count j = if j = k then v else h.count j := by
  simp only [count, insert, lookup_insertEntry]
  split <;> rfl

/-- One more of a key. -/
def bump (h : Histogram) (k : Nat) : Histogram := h.insert k (addCapped (h.count k) 1)

def size (h : Histogram) : Nat := h.entries.length

end Histogram

/-- How often each kind of thing happened. -/
structure Tally where
  includedCalls : Nat
  excludedCalls : Nat
  emptySets : Nat
  treePaths : Nat
  fallbackPaths : Nat
  valuesIn : Nat
  valuesUnique : Nat
  treesBuilt : Nat
  leavesBuilt : Nat
  deriving DecidableEq, Repr

def Tally.zero : Tally := ⟨0, 0, 0, 0, 0, 0, 0, 0, 0⟩

structure Counters where
  tally : Tally
  buckets : Histogram
  deriving DecidableEq, Repr

namespace Counters

def zero : Counters := ⟨.zero, .empty⟩

def recordMembership (m : Membership) (t : Tally) : Tally :=
  match m with
  | .included => { t with includedCalls := addCapped t.includedCalls 1 }
  | .excluded => { t with excludedCalls := addCapped t.excludedCalls 1 }

def recordPath (p : Path) (t : Tally) : Tally :=
  match p with
  | .empty => { t with emptySets := addCapped t.emptySets 1 }
  | .tree _ => { t with treePaths := addCapped t.treePaths 1 }
  | .fallback _ => { t with fallbackPaths := addCapped t.fallbackPaths 1 }

def recordBucket (p : Path) (h : Histogram) : Histogram :=
  match p with
  | .tree bucket => h.bump bucket
  | .empty | .fallback _ => h

/-- The counters after one more event. -/
def record (c : Counters) : Event → Counters
  | .deduplicated input unique =>
    { c with tally := { c.tally with
        valuesIn := addCapped c.tally.valuesIn input
        valuesUnique := addCapped c.tally.valuesUnique unique } }
  | .treeBuilt leaves =>
    { c with tally := { c.tally with
        treesBuilt := addCapped c.tally.treesBuilt 1
        leavesBuilt := addCapped c.tally.leavesBuilt leaves } }
  | .compiled m p =>
    { tally := recordPath p (recordMembership m c.tally), buckets := recordBucket p c.buckets }

def recordAll (c : Counters) (events : List Event) : Counters := events.foldl record c

end Counters

/-- The counters together with the number of sizes that occurred. -/
structure Report where
  counters : Counters
  distinctShapes : Nat
  deriving DecidableEq, Repr

def Report.zero : Report := ⟨.zero, 0⟩

def Counters.report (c : Counters) : Report := ⟨c, c.buckets.size⟩

end PlanShape
