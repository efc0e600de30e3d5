import Mathlib.Data.List.TakeWhile
import PlanShape.Json.Format
import PlanShape.Proofs.Words

/-!
The text of a JSON value and the value of that text. A plain value is scanned as its own tokens,
whatever follows it in a text, and the machine that meets these tokens puts the value where it
belongs, whatever is open around it. So a plain value is read back from its text.
-/
namespace PlanShape

namespace Json

/-- A count as a JSON value. -/
def ofCount (n : Nat) : Json := .number (Decimal.write n)

/-- A character that stands for itself in a string. -/
def isPlainChar (c : Char) : Bool := c != '"' && c != '\\' && !(decide (c < ' '))

/-- Values with no more than so many arrays and objects around each other, whose strings need no
escapes and whose numbers are written counts. -/
inductive Plain : Nat → Json → Prop where
  | null {depth : Nat} : Plain depth .null
  | bool {depth : Nat} (b : Bool) : Plain depth (.bool b)
  | number {depth n : Nat} (le : n ≤ maxCount) : Plain depth (.ofCount n)
  | text {depth : Nat} {cs : List Char} (chars : ∀ c ∈ cs, isPlainChar c = true) :
    Plain depth (.text cs)
  | array {depth : Nat} {items : List Json} (each : ∀ v ∈ items, Plain depth v) :
    Plain (depth + 1) (.array items)
  | object {depth : Nat} {members : List (List Char × Json)}
    (keys : ∀ m ∈ members, ∀ c ∈ m.1, isPlainChar c = true)
    (values : ∀ m ∈ members, Plain depth m.2) : Plain (depth + 1) (.object members)

mutual

/-- The text of a value, without blanks, in front of `rest`. -/
def writeOnto : Json → List Char → List Char
  | .null, rest => 'n' :: 'u' :: 'l' :: 'l' :: rest
  | .bool true, rest => 't' :: 'r' :: 'u' :: 'e' :: rest
  | .bool false, rest => 'f' :: 'a' :: 'l' :: 's' :: 'e' :: rest
  | .number cs, rest => cs ++ rest
  | .text cs, rest => '"' :: (cs ++ '"' :: rest)
  | .array items, rest => '[' :: writeItems items (']' :: rest)
  | .object members, rest => '\x7b' :: writeMembers members ('\x7d' :: rest)

/-- Items separated by commas. -/
def writeItems : List Json → List Char → List Char
  | [], rest => rest
  | [v], rest => v.writeOnto rest
  | v :: vs, rest => v.writeOnto (',' :: writeItems vs rest)

/-- Members separated by commas. -/
def writeMembers : List (List Char × Json) → List Char → List Char
  | [], rest => rest
  | [(k, v)], rest => '"' :: (k ++ '"' :: ':' :: v.writeOnto rest)
  | (k, v) :: ms, rest => '"' :: (k ++ '"' :: ':' :: v.writeOnto (',' :: writeMembers ms rest))

end

/-- The text of a value. -/
def write (j : Json) : String := String.ofList (j.writeOnto [])

mutual

/-- The tokens of the text of a value. -/
def tokens : Json → List Token
  | .null => [.word ['n', 'u', 'l', 'l']]
  | .bool true => [.word ['t', 'r', 'u', 'e']]
  | .bool false => [.word ['f', 'a', 'l', 's', 'e']]
  | .number cs => [.word cs]
  | .text cs => [.text cs]
  | .array items => .openBracket :: (itemTokens items ++ [.closeBracket])
  | .object members => .openBrace :: (memberTokens members ++ [.closeBrace])

def itemTokens : List Json → List Token
  | [] => []
  | [v] => v.tokens
  | v :: vs => v.tokens ++ .comma :: itemTokens vs

def memberTokens : List (List Char × Json) → List Token
  | [] => []
  | [(k, v)] => .text k :: .colon :: v.tokens
  | (k, v) :: ms => .text k :: .colon :: (v.tokens ++ .comma :: memberTokens ms)

end

theorem itemTokens_cons_cons (v w : Json) (vs : List Json) :
    itemTokens (v :: w :: vs) = v.tokens ++ .comma :: itemTokens (w :: vs) := rfl

theorem memberTokens_cons_cons (k : List Char) (v : Json) (m : List Char × Json)
    (ms : List (List Char × Json)) :
    memberTokens ((k, v) :: m :: ms) =
      .text k :: .colon :: (v.tokens ++ .comma :: memberTokens (m :: ms)) := rfl

theorem writeItems_cons_cons (v w : Json) (vs : List Json) (rest : List Char) :
    writeItems (v :: w :: vs) rest = v.writeOnto (',' :: writeItems (w :: vs) rest) := rfl

theorem writeMembers_cons_cons (k : List Char) (v : Json) (m : List Char × Json)
    (ms : List (List Char × Json)) (rest : List Char) :
    writeMembers ((k, v) :: m :: ms) rest =
      '"' :: (k ++ '"' :: ':' :: v.writeOnto (',' :: writeMembers (m :: ms) rest)) := rfl

mutual

/-- A text is written in front of whatever follows it. -/
theorem writeOnto_append (as bs : List Char) (v : Json) :
    v.writeOnto (as ++ bs) = v.writeOnto as ++ bs := by
  cases v with
  | null => rfl
  | bool b => cases b <;> rfl
  | number cs => exact (List.append_assoc cs as bs).symm
  | text cs => simp [writeOnto]
  | array items =>
    rw [writeOnto, writeOnto, List.cons_append, ← writeItems_append]
    rfl
  | object members =>
    rw [writeOnto, writeOnto, List.cons_append, ← writeMembers_append]
    rfl

theorem writeItems_append (as bs : List Char) (items : List Json) :
    writeItems items (as ++ bs) = writeItems items as ++ bs := by
  match items with
  | [] => rfl
  | [v] => exact writeOnto_append as bs v
  | v :: w :: vs =>
    rw [writeItems_cons_cons, writeItems_cons_cons, writeItems_append, ← List.cons_append,
      writeOnto_append]

theorem writeMembers_append (as bs : List Char) (members : List (List Char × Json)) :
    writeMembers members (as ++ bs) = writeMembers members as ++ bs := by
  match members with
  | [] => rfl
  | [(k, v)] => simp [writeMembers, writeOnto_append]
  | (k, v) :: m :: ms =>
    rw [writeMembers_cons_cons, writeMembers_cons_cons, writeMembers_append,
      ← List.cons_append (a := ','), writeOnto_append]
    simp

end

open Scanner

/-- A plain string is read up to its closing quote. -/
theorem scan?_text {cs : List Char} (h : ∀ c ∈ cs, isPlainChar c = true) (rest : List Char) :
    scanner.scan? ('"' :: (cs ++ '"' :: rest)) =
      (scanner.scan? rest).map (.text cs :: ·) := by
  refine Scanner.scan?_quoted .text rfl (fun _ => rfl) (fun c hc read => ?_) rest
  obtain ⟨⟨hquote, hslash⟩, hcontrol⟩ : (c ≠ '"' ∧ c ≠ '\\') ∧ ¬ c < ' ' := by
    simpa [isPlainChar] using h c hc
  exact (if_neg hquote).trans ((if_neg hslash).trans (if_neg hcontrol))

/-- The text of the value is scanned as its tokens, if what follows does not go on with a word. -/
def Scanned (v : Json) : Prop := ∀ rest, scanner.Ends rest →
  scanner.scan? (v.writeOnto rest) = (scanner.scan? rest).map (v.tokens ++ ·)

theorem scan?_items {items : List Json} (h : ∀ v ∈ items, v.Scanned) {rest : List Char}
    (hrest : scanner.Ends rest) :
    scanner.scan? (writeItems items rest) =
      (scanner.scan? rest).map (itemTokens items ++ ·) := by
  induction items with
  | nil => exact Option.map_id'.symm
  | cons v vs ih =>
    have hv := h v List.mem_cons_self
    have hvs := ih fun w hw => h w (List.mem_cons_of_mem v hw)
    cases vs with
    | nil => exact hv rest hrest
    | cons w vs =>
      rw [writeItems_cons_cons, hv _ (ends_cons (by decide)), scan?_cons rfl, hvs,
        itemTokens_cons_cons]
      simp [Function.comp_def]

theorem scan?_members {members : List (List Char × Json)}
    (hkeys : ∀ m ∈ members, ∀ c ∈ m.1, isPlainChar c = true) (h : ∀ m ∈ members, m.2.Scanned)
    {rest : List Char} (hrest : scanner.Ends rest) :
    scanner.scan? (writeMembers members rest) =
      (scanner.scan? rest).map (memberTokens members ++ ·) := by
  induction members with
  | nil => exact Option.map_id'.symm
  | cons m ms ih =>
    obtain ⟨k, v⟩ := m
    have hk := hkeys (k, v) List.mem_cons_self
    have hv : v.Scanned := h (k, v) List.mem_cons_self
    have hms := ih (fun m hm => hkeys m (List.mem_cons_of_mem _ hm))
      fun m hm => h m (List.mem_cons_of_mem _ hm)
    cases ms with
    | nil =>
      rw [writeMembers, scan?_text hk, scan?_cons rfl, hv rest hrest, memberTokens]
      simp [Function.comp_def]
    | cons m ms =>
      rw [writeMembers_cons_cons, scan?_text hk, scan?_cons rfl,
        hv _ (ends_cons (by decide)), scan?_cons rfl, hms, memberTokens_cons_cons]
      simp [Function.comp_def]

theorem scanned_word {v : Json} {cs : List Char} (htokens : v.tokens = [.word cs])
    (hwrite : ∀ rest, v.writeOnto rest = cs ++ rest) (hne : cs ≠ [])
    (h : cs.all isWordChar = true) : v.Scanned := by
  intro rest hrest
  rw [hwrite, htokens]
  exact scan?_word hne (List.all_eq_true.1 h) hrest

theorem Plain.scanned {depth : Nat} {v : Json} (h : Plain depth v) : v.Scanned := by
  induction h with
  | null => exact scanned_word rfl (fun _ => rfl) (by decide) rfl
  | bool b => cases b <;> exact scanned_word rfl (fun _ => rfl) (by decide) rfl
  | number => exact fun _ hrest => scan?_write _ hrest
  | text chars => exact fun rest _ => scan?_text chars rest
  | array each ih =>
    intro rest hrest
    rw [writeOnto, scan?_cons rfl, scan?_items ih (ends_cons (by decide)),
      scan?_cons rfl, tokens]
    simp [Function.comp_def]
  | object keys values ih =>
    intro rest hrest
    rw [writeOnto, scan?_cons rfl,
      scan?_members keys ih (ends_cons (by decide)), scan?_cons rfl, tokens]
    simp [Function.comp_def]

/-- The decimal form of a count is a number, with no sign, fraction or exponent. -/
theorem isNumber_write (n : Nat) : isNumber (Decimal.write n) = true := by
  have hdigits : ∀ c ∈ Decimal.write n, c.isDigit = true := fun c hc =>
    Decimal.isDigit_of_mem_write hc
  by_cases hzero : n = 0
  · subst hzero
    rfl
  · have hhead := Decimal.head?_write_ne_zero n (Nat.pos_of_ne_zero hzero)
    obtain ⟨c, cs, hw⟩ := List.exists_cons_of_ne_nil (Decimal.write_ne_nil n)
    rw [hw] at hdigits hhead ⊢
    have hminus : c ≠ '-' := by
      rintro rfl
      exact absurd (hdigits '-' List.mem_cons_self) (by decide)
    have hfirst : c ≠ '0' := by
      rintro rfl
      exact hhead rfl
    have hunsigned : isNumber (c :: cs) = isUnsignedNumber (c :: cs) := by
      simp [isNumber, hminus]
    have hwhole : isUnsignedNumber (c :: cs) =
        (isDigits ((c :: cs).takeWhile Char.isDigit) &&
          isFractionPart ((c :: cs).dropWhile Char.isDigit)) := by
      simp [isUnsignedNumber, hfirst]
    rw [hunsigned, hwhole, List.takeWhile_eq_self_iff.2 hdigits,
      List.dropWhile_eq_nil_iff.2 hdigits]
    simpa [isDigits, isFractionPart, isExponentPart] using hdigits

theorem ofWord?_write (n : Nat) : ofWord? (Decimal.write n) = some (.ofCount n) := by
  have hname (c : Char) (cs : List Char) (hc : c.isDigit = false) : Decimal.write n ≠ c :: cs := by
    intro h
    have hdigit : c.isDigit := Decimal.isDigit_of_mem_write (n := n) (h ▸ List.mem_cons_self)
    rw [hc] at hdigit
    cases hdigit
  rw [ofWord?, if_neg (hname 'n' _ (by decide)), if_neg (hname 't' _ (by decide)),
    if_neg (hname 'f' _ (by decide)), if_pos (isNumber_write n)]
  rfl

namespace Machine

/-- A value may begin here. -/
def AwaitsValue (m : Machine) : Prop := m.phase = .value ∨ m.phase = .firstItem

/-- A key may stand here. -/
def AwaitsKey (m : Machine) : Prop := m.phase = .key ∨ m.phase = .firstKey

theorem AwaitsValue.step? {m : Machine} (h : m.AwaitsValue) {t : Token} (ht : t ≠ .closeBracket) :
    m.step? t = value? t m.stack := by
  obtain ⟨phase, stack⟩ := m
  obtain rfl | rfl := h
  · rfl
  · cases t <;> first | rfl | exact absurd rfl ht

theorem AwaitsKey.step? {m : Machine} (h : m.AwaitsKey) {key : List Char}
    {before : List (List Char × Json)} {stack : List Frame}
    (hs : m.stack = .members before :: stack) :
    m.step? (.text key) = some ⟨.colon, .member before key :: stack⟩ := by
  obtain ⟨phase, _⟩ := m
  obtain rfl := hs
  obtain rfl | rfl := h <;> rfl

end Machine

/-- The tokens of the value put it where it belongs, wherever a value may begin. -/
def Placed (v : Json) : Prop :=
  ∀ m : Machine, m.AwaitsValue → v.tokens.foldlM Machine.step? m = Machine.put? v m.stack

theorem placed_word {v : Json} {cs : List Char} (htokens : v.tokens = [.word cs])
    (hword : ofWord? cs = some v) : v.Placed := by
  intro m hm
  rw [htokens, List.foldlM_cons, hm.step? (by simp), Machine.value?, hword]
  exact bind_pure _

/-- Items are collected until their array is closed. -/
theorem foldlM_items {items : List Json} (hne : items ≠ []) (h : ∀ v ∈ items, v.Placed)
    {m : Machine} (hm : m.AwaitsValue) {before : List Json} {stack : List Frame}
    (hs : m.stack = .items before :: stack) :
    (itemTokens items ++ [Token.closeBracket]).foldlM Machine.step? m =
      Machine.put? (.array (before.reverse ++ items)) stack := by
  induction items generalizing m before with
  | nil => exact absurd rfl hne
  | cons v vs ih =>
    have hv : v.tokens.foldlM Machine.step? m =
        some ⟨.separator, .items (v :: before) :: stack⟩ := by
      rw [h v List.mem_cons_self m hm, hs]
      rfl
    cases vs with
    | nil =>
      rw [itemTokens, List.foldlM_append, hv]
      simp [Machine.step?, Machine.separator?, Machine.close?]
    | cons w vs =>
      -- behind the comma the machine awaits a value as it did at the first item
      have hrest := ih (List.cons_ne_nil w vs) (fun u hu => h u (List.mem_cons_of_mem v hu))
        (m := ⟨.value, .items (v :: before) :: stack⟩) (.inl rfl) rfl
      rw [itemTokens_cons_cons, List.append_assoc, List.foldlM_append, hv, List.cons_append]
      simpa [Machine.step?, Machine.separator?] using hrest

/-- Members are collected until their object is closed. -/
theorem foldlM_members {members : List (List Char × Json)} (hne : members ≠ [])
    (h : ∀ p ∈ members, p.2.Placed) {m : Machine} (hm : m.AwaitsKey)
    {before : List (List Char × Json)} {stack : List Frame}
    (hs : m.stack = .members before :: stack) :
    (memberTokens members ++ [Token.closeBrace]).foldlM Machine.step? m =
      Machine.put? (.object (before.reverse ++ members)) stack := by
  induction members generalizing m before with
  | nil => exact absurd rfl hne
  | cons p ps ih =>
    obtain ⟨k, v⟩ := p
    have hv : v.tokens.foldlM Machine.step? ⟨.value, .member before k :: stack⟩ =
        some ⟨.separator, .members ((k, v) :: before) :: stack⟩ :=
      h (k, v) List.mem_cons_self _ (.inl rfl)
    cases ps with
    | nil =>
      rw [memberTokens, List.cons_append, List.cons_append, List.foldlM_cons, hm.step? hs]
      simp [List.foldlM_append, Machine.step?, hv, Machine.separator?, Machine.close?]
    | cons q ps =>
      have hrest := ih (List.cons_ne_nil q ps) (fun u hu => h u (List.mem_cons_of_mem _ hu))
        (m := ⟨.key, .members ((k, v) :: before) :: stack⟩) (.inl rfl) rfl
      rw [memberTokens_cons_cons, List.cons_append, List.cons_append, List.foldlM_cons, hm.step? hs]
      simpa [List.foldlM_append, Machine.step?, hv, Machine.separator?] using hrest

theorem Plain.placed {depth : Nat} {v : Json} (h : Plain depth v) : v.Placed := by
  induction h with
  | null => exact placed_word rfl rfl
  | bool b => cases b <;> exact placed_word rfl rfl
  | number => exact placed_word rfl (ofWord?_write _)
  | text =>
    intro m hm
    rw [tokens, List.foldlM_cons, hm.step? (by simp)]
    exact bind_pure (Machine.put? _ _)
  | @array _ items each ih =>
    intro m hm
    rw [tokens, List.foldlM_cons, hm.step? (by simp)]
    by_cases hne : items = []
    · subst hne
      exact bind_pure (Machine.put? _ _)
    · exact foldlM_items hne ih (m := ⟨.firstItem, .items [] :: m.stack⟩) (.inr rfl) rfl
  | @object _ members keys values ih =>
    intro m hm
    rw [tokens, List.foldlM_cons, hm.step? (by simp)]
    by_cases hne : members = []
    · subst hne
      exact bind_pure (Machine.put? _ _)
    · exact foldlM_members hne ih (m := ⟨.firstKey, .members [] :: m.stack⟩) (.inr rfl) rfl

/-- A plain value is the value of its text. -/
theorem parse?_write {depth : Nat} {v : Json} (h : Plain depth v) :
    parse? v.write.toList = some v := by
  have hscan : scanner.scan? (v.writeOnto []) = some v.tokens := by
    rw [h.scanned [] scanner.ends_nil]
    exact congrArg some (List.append_nil _)
  have htokens : ofTokens? v.tokens = some v := by
    rw [ofTokens?, h.placed _ (.inl rfl)]
    rfl
  rw [write, String.toList_ofList, parse?, hscan]
  exact htokens

end Json

end PlanShape
