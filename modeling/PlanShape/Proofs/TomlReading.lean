import Mathlib.Data.List.Nodup
import PlanShape.Proofs.TomlGrammar
import PlanShape.Proofs.TomlNumber

/-!
The reader of TOML documents that is spelled out here follows the grammar, and so does its writer.
A reading runs over the tokens of a text. Each piece of the grammar is scanned by itself and takes
the reading from one state to another, whatever stands behind it, so a document is read line by
line: what it assigns is collected, up to a key that has been assigned before.
-/
namespace PlanShape

namespace Toml

open Scanner

namespace Progress

/-- A reading that goes on with a text. -/
def run (p : Progress) (cs : List Char) : Except ReadError (List (String × Value)) :=
  match scanner.scan? cs with
  | none => .error .malformed
  | some ts => do (← ts.foldlM step p).finish

/-- A piece of the text is scanned by itself, and its tokens take the reading on. -/
theorem run_of_scan {p p' : Progress} {cs rest : List Char} {ts : List Token}
    (hscan : scanner.scan? cs = (scanner.scan? rest).map (ts ++ ·))
    (hstep : ts.foldlM step p = .ok p') : p.run cs = p'.run rest := by
  rw [run, run, hscan]
  cases scanner.scan? rest with
  | none => rfl
  | some ts' =>
    simp only [Option.map_some, List.foldlM_append, hstep]
    rfl

/-- The tokens of a piece stop the reading. -/
theorem run_error_of_scan {p : Progress} {cs rest : List Char} {ts : List Token} {e : ReadError}
    (hscan : scanner.scan? cs = (scanner.scan? rest).map (ts ++ ·))
    (hstep : ts.foldlM step p = .error e) : ∃ e', p.run cs = .error e' := by
  rw [run, hscan]
  cases scanner.scan? rest with
  | none => exact ⟨_, rfl⟩
  | some ts' =>
    simp only [Option.map_some, List.foldlM_append, hstep]
    exact ⟨e, rfl⟩

end Progress

open Progress

variable {p : Progress} {rest : List Char}

theorem scan?_blank {b : List Char} (hb : IsBlank b) :
    scanner.scan? (b ++ rest) = scanner.scan? rest := by
  induction b with
  | nil => rfl
  | cons c b ih =>
    have hc : scanner.step? .between c = some ([], .between) := by
      obtain rfl | rfl := hb c List.mem_cons_self <;> rfl
    rw [List.cons_append, Scanner.scan?, scanFrom?_silent hc]
    exact ih fun d hd => hb d (List.mem_cons_of_mem c hd)

/-- A character that is a token. -/
theorem run_token {p' : Progress} {c : Char} {t : Token}
    (hscan : scanner.step? .between c = some ([t], .between)) (hstep : p.step t = .ok p') :
    p.run (c :: rest) = p'.run rest := by
  refine run_of_scan (scan?_cons hscan rest) ?_
  rw [List.foldlM_cons, hstep]
  rfl

theorem run_blank {b : List Char} (hb : IsBlank b) : p.run (b ++ rest) = p.run rest := by
  rw [run, run, scan?_blank hb]

/-- What may stand behind a line. -/
def AtLineEnd (rest : List Char) : Prop := rest = [] ∨ ∃ e cs, IsLineEnd e ∧ rest = e ++ cs

theorem run_trail {t : List Char} (ht : IsTrail t) (hrest : AtLineEnd rest) :
    p.run (t ++ rest) = p.run rest := by
  have hscan : scanner.scan? (t ++ rest) = scanner.scan? rest := by
    cases ht with
    | nothing => rfl
    | @comment cs chars =>
      have hopen : scanner.step? .between '#' = some ([], .inside .comment) := rfl
      have hbehind : scanner.scanFrom? (.inside .comment) rest = scanner.scan? rest := by
        obtain rfl | ⟨e, cs, he, rfl⟩ := hrest
        · rfl
        · cases he <;> rfl
      rw [List.cons_append, Scanner.scan?, scanFrom?_silent hopen, ← hbehind]
      induction cs with
      | nil => rfl
      | cons c cs ih =>
        have hc := chars c List.mem_cons_self
        have hne (d : Char) (hd : isForbidden d = true) : c ≠ d := by
          rintro rfl
          rw [hc] at hd
          cases hd
        have hstep : scanner.step? (.inside .comment) c = some ([], .inside .comment) :=
          (if_neg (hne '\n' (by decide))).trans ((if_neg (hne '\r' (by decide))).trans
            (if_neg (by simp [hc])))
        rw [List.cons_append, scanFrom?_silent hstep]
        exact ih fun d hd => chars d (List.mem_cons_of_mem c hd)
  rw [run, run, hscan]

theorem run_lineEnd {p' : Progress} {e : List Char} (he : IsLineEnd e)
    (hstep : p.step .newline = .ok p') : p.run (e ++ rest) = p'.run rest := by
  have hscan : scanner.scan? (e ++ rest) = (scanner.scan? rest).map ([.newline] ++ ·) := by
    cases he with
    | newline => exact scan?_cons rfl rest
    | carriage =>
      have hcarriage : scanner.step? .between '\r' = some ([], .inside .carriage) := rfl
      have hnewline : scanner.step? (.inside .carriage) '\n' = some ([.newline], .between) := rfl
      exact (scanFrom?_silent hcarriage _).trans (scanFrom?_cons hnewline rest)
  refine run_of_scan hscan ?_
  rw [List.foldlM_cons, hstep]
  rfl

theorem run_gap {g : List Char} (hg : IsGap g) (hstep : p.step .newline = .ok p) :
    p.run (g ++ rest) = p.run rest := by
  induction hg with
  | blank hb => exact run_blank hb
  | @lineEnd b t e cs hb ht he _ ih =>
    rw [List.append_assoc, List.append_assoc, List.append_assoc, run_blank hb,
      run_trail ht (.inr ⟨e, _, he, rfl⟩), run_lineEnd he hstep, ih]

theorem run_word {p' : Progress} {cs : List Char} (hcs : IsWord cs) (hrest : scanner.Ends rest)
    (hstep : p.step (.word cs) = .ok p') : p.run (cs ++ rest) = p'.run rest := by
  have hscan : scanner.scan? (cs ++ rest) = (scanner.scan? rest).map ([.word cs] ++ ·) :=
    scan?_word hcs.1 hcs.2 hrest
  refine run_of_scan hscan ?_
  rw [List.foldlM_cons, hstep]
  rfl

theorem count_of_count? {cs : List Char} {n : Nat} (h : count? cs = some n)
    (behind : Nat → Progress) : Progress.count cs behind = .ok (behind n) := by
  rw [Progress.count, h]

theorem ends_of_isBlank {b : List Char} (hb : IsBlank b) : scanner.Ends b := by
  cases b with
  | nil => exact ends_nil scanner
  | cons c b =>
    obtain rfl | rfl := hb c List.mem_cons_self <;> exact ends_cons (by decide)

theorem ends_of_isTrail {t : List Char} (ht : IsTrail t) : scanner.Ends t := by
  cases ht with
  | nothing => exact ends_nil scanner
  | comment => exact ends_cons (by decide)

theorem ends_of_isLineEnd {e : List Char} (he : IsLineEnd e) : scanner.Ends e := by
  cases he <;> exact ends_cons (by decide)

theorem ends_of_isGap {g : List Char} (hg : IsGap g) : scanner.Ends g := by
  induction hg with
  | blank hb => exact ends_of_isBlank hb
  | lineEnd hb ht he _ ih =>
    exact (ends_of_isBlank hb).append
      ((ends_of_isTrail ht).append ((ends_of_isLineEnd he).append ih))

theorem ends_of_atLineEnd (hrest : AtLineEnd rest) : scanner.Ends rest := by
  obtain rfl | ⟨e, cs, he, rfl⟩ := hrest
  · exact ends_nil scanner
  · cases he <;> exact ends_cons (by decide)

section
variable {k : String} {entries : List (String × Value)}

/-- A count of an array, with what stands around it. -/
theorem run_item {g cs g' : List Char} {n : Nat} (hg : IsGap g) (hn : count? cs = some n)
    (hg' : IsGap g') (hrest : scanner.Ends rest) {before : List Nat} :
    run ⟨.item k before, entries⟩ (g ++ (cs ++ (g' ++ rest))) =
      run ⟨.separator k (n :: before), entries⟩ rest := by
  have hends : scanner.Ends (g' ++ rest) := (ends_of_isGap hg').append hrest
  have hstep : step ⟨.item k before, entries⟩ (.word cs) =
      .ok ⟨.separator k (n :: before), entries⟩ := count_of_count? hn _
  rw [run_gap hg rfl, run_word (isWord_of_count? hn) hends hstep, run_gap hg' rfl]

/-- The counts of an array are collected in reverse, up to the closing bracket. -/
theorem run_elements {cs : List Char} {ns : List Nat} (h : Elements cs ns) {before : List Nat} :
    run ⟨.item k before, entries⟩ (cs ++ ']' :: rest) =
      run ⟨.lineEnd, (k, .integers (before.reverse ++ ns)) :: entries⟩ rest := by
  induction h generalizing before with
  | nil hg =>
    rw [run_gap hg rfl, List.append_nil]
    exact run_token rfl rfl
  | last hg hn hg' =>
    rw [List.append_assoc, List.append_assoc, run_item hg hn hg' (ends_cons (by decide)),
      run_token rfl rfl, List.reverse_cons]
  | cons hg hn hg' _ ih =>
    rw [List.append_assoc, List.append_assoc, List.append_assoc, List.cons_append,
      run_item hg hn hg' (ends_cons (by decide)), run_token rfl rfl, ih, List.reverse_cons,
      List.append_assoc]
    rfl

theorem run_value {cs : List Char} {v : Value} (h : Spells cs v) (hrest : scanner.Ends rest) :
    run ⟨.value k, entries⟩ (cs ++ rest) = run ⟨.lineEnd, (k, v) :: entries⟩ rest := by
  cases h with
  | integer hn => exact run_word (isWord_of_count? hn) hrest (count_of_count? hn _)
  | integers hns =>
    rw [List.cons_append, List.append_assoc, run_token rfl rfl]
    exact run_elements hns

/-- A key is one token, by which the reading begins an assignment to its name. -/
theorem scan?_key {name : String} {cs : List Char} (h : IsKey name cs)
    (hrest : scanner.Ends rest) :
    ∃ t, scanner.scan? (cs ++ rest) = (scanner.scan? rest).map ([t] ++ ·) ∧
      ∀ entries, step ⟨.key, entries⟩ t = Progress.key entries name := by
  cases h with
  | bare h =>
    have hchars : ∀ c ∈ name.toList, isWordChar c = true := fun c hc => by
      have hkey := h.2 c hc
      simp only [isKeyChar, isWordChar, Bool.or_eq_true] at hkey ⊢
      tauto
    refine ⟨.word name.toList, scan?_word (by simpa using h.1) hchars hrest, fun entries => ?_⟩
    have hall : name.toList.all isKeyChar = true := List.all_eq_true.2 h.2
    exact (if_pos hall).trans (by rw [String.ofList_toList])
  | basic h =>
    refine ⟨.quoted name.toList, ?_,
      fun entries => congrArg (Progress.key entries) String.ofList_toList⟩
    rw [List.cons_append, List.append_assoc]
    refine scan?_quoted .basic rfl (fun _ => rfl) (fun c hc read => ?_) rest
    obtain ⟨hquote, hslash, hcontrol⟩ := h c hc
    exact (if_neg hquote).trans ((if_neg hslash).trans (if_neg (by simp [hcontrol])))
  | literal h =>
    refine ⟨.quoted name.toList, ?_,
      fun entries => congrArg (Progress.key entries) String.ofList_toList⟩
    rw [List.cons_append, List.append_assoc]
    refine scan?_quoted .literal rfl (fun _ => rfl) (fun c hc read => ?_) rest
    obtain ⟨hquote, hcontrol⟩ := h c hc
    exact (if_neg hquote).trans (if_neg (by simp [hcontrol]))

theorem key_new {name : String} (h : name ∉ entries.map (·.1)) :
    Progress.key entries name = .ok ⟨.equals name, entries⟩ :=
  if_neg (by simpa using h)

theorem key_repeated {name : String} (h : name ∈ entries.map (·.1)) :
    Progress.key entries name = .error (.repeatedKey name) :=
  if_pos (by simpa using h)

section
variable {b k b₁ : List Char} {name : String} (hb : IsBlank b) (hk : IsKey name k)
  (hb₁ : IsBlank b₁)
include hb hk hb₁

theorem scan?_assigned (rest : List Char) :
    ∃ t, scanner.scan? (b ++ (k ++ (b₁ ++ '=' :: rest))) =
        (scanner.scan? (b₁ ++ '=' :: rest)).map ([t] ++ ·) ∧
      ∀ entries, step ⟨.key, entries⟩ t = Progress.key entries name := by
  rw [scan?_blank hb]
  exact scan?_key hk ((ends_of_isBlank hb₁).append (ends_cons (by decide)))

theorem run_key (hnew : name ∉ entries.map (·.1)) :
    run ⟨.key, entries⟩ (b ++ (k ++ (b₁ ++ '=' :: rest))) = run ⟨.value name, entries⟩ rest := by
  obtain ⟨t, hscan, hstep⟩ := scan?_assigned hb hk hb₁ rest
  rw [run_of_scan hscan (by rw [List.foldlM_cons, hstep, key_new hnew]; rfl), run_blank hb₁,
    run_token rfl rfl]

/-- A key that has been assigned stops the reading. -/
theorem run_key_repeated (hold : name ∈ entries.map (·.1)) :
    ∃ e, run ⟨.key, entries⟩ (b ++ (k ++ (b₁ ++ '=' :: rest))) = .error e := by
  obtain ⟨t, hscan, hstep⟩ := scan?_assigned hb hk hb₁ rest
  exact run_error_of_scan hscan (by rw [List.foldlM_cons, hstep, key_repeated hold]; rfl)

end

variable {other : List Char → Prop} {cs : List Char} {es : List (String × Value)}

/-- A line assigns its value, if the key is new. -/
theorem run_line (hother : ∀ cs, ¬ other cs) (h : Line other cs es)
    (hnew : ∀ e ∈ es, e.1 ∉ entries.map (·.1)) (hrest : AtLineEnd rest) :
    ∃ phase, (phase = .key ∨ phase = .lineEnd) ∧
      run ⟨.key, entries⟩ (cs ++ rest) = run ⟨phase, es.reverse ++ entries⟩ rest := by
  cases h with
  | blank hb ht =>
    refine ⟨.key, .inl rfl, ?_⟩
    rw [List.append_assoc, run_blank hb, run_trail ht hrest]
    rfl
  | @assign b b₁ b₂ b₃ k value t name v hb hk hb₁ hb₂ hv hb₃ ht =>
    obtain hv | ⟨hv, -⟩ := hv
    · have hends : scanner.Ends (b₃ ++ (t ++ rest)) :=
        (ends_of_isBlank hb₃).append ((ends_of_isTrail ht).append (ends_of_atLineEnd hrest))
      refine ⟨.lineEnd, .inr rfl, ?_⟩
      simp only [List.append_assoc, List.cons_append]
      rw [run_key hb hk hb₁ (hnew (name, v) List.mem_cons_self), run_blank hb₂, run_value hv hends,
        run_blank hb₃, run_trail ht hrest]
      rfl
    · exact absurd hv (hother value)

theorem run_line_repeated (h : Line other cs es) (hold : ∃ e ∈ es, e.1 ∈ entries.map (·.1)) :
    ∃ e, run ⟨.key, entries⟩ (cs ++ rest) = .error e := by
  obtain ⟨e, he, hmem⟩ := hold
  cases h with
  | blank => cases he
  | assign hb hk hb₁ =>
    obtain rfl := List.mem_singleton.1 he
    simp only [List.append_assoc, List.cons_append]
    exact run_key_repeated hb hk hb₁ hmem

theorem Line.nodup_iff (h : Line other cs es) (hentries : (entries.map (·.1)).Nodup) :
    ((es.reverse ++ entries).map (·.1)).Nodup ↔ ∀ e ∈ es, e.1 ∉ entries.map (·.1) := by
  cases h with
  | blank => exact ⟨fun _ => nofun, fun _ => hentries⟩
  | assign =>
    rw [List.forall_mem_singleton]
    exact List.nodup_cons.trans (and_iff_left hentries)

theorem run_lines {phase : Phase} (hphase : phase = .key ∨ phase = .lineEnd) {e : List Char}
    (he : IsLineEnd e) : run ⟨phase, entries⟩ (e ++ rest) = run ⟨.key, entries⟩ rest := by
  refine run_lineEnd he ?_
  obtain rfl | rfl := hphase <;> rfl

/-- Line by line, what a document assigns is added to what has been assigned before. -/
theorem run_document (hother : ∀ cs, ¬ other cs) (h : Document other cs es)
    (hentries : (entries.map (·.1)).Nodup) (hnodup : ((es.reverse ++ entries).map (·.1)).Nodup) :
    run ⟨.key, entries⟩ cs = .ok (entries.reverse ++ es) := by
  induction h generalizing entries with
  | last hline =>
    obtain ⟨phase, hphase, hrun⟩ :=
      run_line hother hline ((hline.nodup_iff hentries).1 hnodup) (.inl rfl)
    rw [List.append_nil] at hrun
    rw [hrun]
    obtain rfl | rfl := hphase <;> exact congrArg Except.ok (by simp)
  | @cons cs e rest es es' hline he _ ih =>
    rw [List.reverse_append, List.append_assoc] at hnodup
    have hline' : ((es.reverse ++ entries).map (·.1)).Nodup :=
      hnodup.sublist ((List.sublist_append_right _ _).map _)
    obtain ⟨phase, hphase, hrun⟩ :=
      run_line hother hline ((hline.nodup_iff hentries).1 hline') (.inr ⟨e, rest, he, rfl⟩)
    rw [hrun, run_lines hphase he, ih hline' hnodup]
    simp

/-- A document that assigns to a key twice is not read to its end. -/
theorem run_document_repeated (hother : ∀ cs, ¬ other cs) (h : Document other cs es)
    (hentries : (entries.map (·.1)).Nodup)
    (hrepeated : ¬ ((es.reverse ++ entries).map (·.1)).Nodup) :
    ∃ e, run ⟨.key, entries⟩ cs = .error e := by
  induction h generalizing entries with
  | last hline =>
    have hold := mt (hline.nodup_iff hentries).2 hrepeated
    push Not at hold
    have hrun : ∃ e, run ⟨.key, entries⟩ (_ ++ []) = .error e := run_line_repeated hline hold
    rwa [List.append_nil] at hrun
  | @cons cs e rest es es' hline he _ ih =>
    by_cases hnew : ∀ e ∈ es, e.1 ∉ entries.map (·.1)
    · rw [List.reverse_append, List.append_assoc] at hrepeated
      obtain ⟨phase, hphase, hrun⟩ := run_line hother hline hnew (.inr ⟨e, rest, he, rfl⟩)
      rw [hrun, run_lines hphase he]
      exact ih ((hline.nodup_iff hentries).2 hnew) hrepeated
    · push Not at hnew
      exact run_line_repeated hline hnew

end

/-- No byte order mark stands at the start. -/
def Unmarked (cs : List Char) : Prop := '\ufeff' ∉ cs.head?

theorem unmarked_cons {c : Char} {cs : List Char} (h : c ≠ '\ufeff') : Unmarked (c :: cs) := by
  simpa [Unmarked] using h

theorem Unmarked.append {cs ds : List Char} (h : Unmarked cs) (hds : Unmarked ds) :
    Unmarked (cs ++ ds) := by
  cases cs with
  | nil => exact hds
  | cons => exact h

theorem unmarked_of_isBlank {b : List Char} (hb : IsBlank b) : Unmarked b := by
  cases b with
  | nil => exact nofun
  | cons c b => obtain rfl | rfl := hb c List.mem_cons_self <;> exact unmarked_cons (by decide)

theorem unmarked_of_isKey {name : String} {k : List Char} (hk : IsKey name k) : Unmarked k := by
  cases hk with
  | bare h =>
    intro hmark
    exact absurd (h.2 _ (List.mem_of_mem_head? hmark)) (by decide)
  | basic | literal => exact unmarked_cons (by decide)

variable {other : List Char → Prop} {cs : List Char} {es : List (String × Value)}

theorem Line.unmarked (h : Line other cs es) : Unmarked cs := by
  cases h with
  | blank hb ht =>
    refine (unmarked_of_isBlank hb).append ?_
    cases ht with
    | nothing => exact nofun
    | comment => exact unmarked_cons (by decide)
  | assign hb hk hb₁ =>
    exact (unmarked_of_isBlank hb).append ((unmarked_of_isKey hk).append
      ((unmarked_of_isBlank hb₁).append (unmarked_cons (by decide))))

theorem Document.unmarked (h : Document other cs es) : Unmarked cs := by
  cases h with
  | last hline => exact hline.unmarked
  | cons hline he =>
    refine hline.unmarked.append ?_
    cases he <;> exact unmarked_cons (by decide)

theorem read_eq_run (h : Unmarked cs) : read cs = run .start cs := by
  have hscan : Toml.scan? cs = scanner.scan? cs := by
    cases cs with
    | nil => rfl
    | cons c cs =>
      have hc : c ≠ '\ufeff' := by simpa [Unmarked] using h
      simp [Toml.scan?, hc]
  rw [read, hscan]
  rfl

/-- The reader follows the grammar for counts and arrays of counts, and knows no other values. -/
theorem reader_followsToml : reader.FollowsToml fun _ => False where
  parse {text entries} h hnodup := by
    have hread : read text.toList = .ok entries := by
      rw [read_eq_run h.unmarked]
      exact run_document (fun _ => id) h .nil (by simpa [List.nodup_reverse] using hnodup)
    exact ⟨entries, .refl _, by simp only [reader, hread]; rfl⟩
  repeated {text entries} h hrepeated := by
    obtain ⟨e, he⟩ : ∃ e, run .start text.toList = .error e :=
      run_document_repeated (fun _ => id) h .nil (by simpa [List.nodup_reverse] using hrepeated)
    have hread : read text.toList = .error e := (read_eq_run h.unmarked).trans he
    exact ⟨e.message, by simp only [reader, hread]; rfl⟩
  count _ := rfl
  list _ := rfl
  records := Reader.readsRecords_of_fieldsByName fun _ _ _ _ => rfl

theorem isGap_nil : IsGap [] := .blank isBlank_nil

theorem Spells.count?_eq {cs : List Char} {n : Nat} (h : Spells cs (.integer n)) :
    count? cs = some n := by
  cases h with
  | integer hn => exact hn

/-- Counts with a comma and a blank between them. -/
theorem elements_intercalate {items : List String} {ns : List Nat}
    (h : List.Forall₂ (fun item n => Spells item.toList (.integer n)) items ns) {g : List Char}
    (hg : IsGap g) : Elements (g ++ (", ".intercalate items).toList) ns := by
  induction h generalizing g with
  | nil => simpa using Elements.nil hg
  | @cons item n items ns hitem hitems ih =>
    have hn := hitem.count?_eq
    cases hitems with
    | nil => simpa using Elements.last hg hn isGap_nil
    | cons =>
      rw [String.intercalate_cons_cons]
      simpa using Elements.cons hg hn isGap_nil (ih (.blank isBlank_space))

/-- An assignment with a blank on each side of the sign. -/
theorem line_plain {name : String} {cs : List Char} {v : Value} (hname : IsBareName name)
    (hv : Spells cs v) : Line other (name.toList ++ ' ' :: '=' :: ' ' :: cs) [(name, v)] := by
  have hline : Line other _ _ := .assign isBlank_nil (.bare hname) isBlank_space isBlank_space
    (.inl hv) isBlank_nil .nothing
  simpa using hline

/-- Assignments on lines of their own. -/
theorem document_join {fields : List (String × String)}
    (h : List.Forall₂ (fun f e => f.1 = e.1 ∧ Spells f.2.toList e.2) fields es)
    (hnames : ∀ e ∈ es, IsBareName e.1) :
    Document other (String.join (fields.map fun (k, v) => lineText k v)).toList es := by
  induction h with
  | nil => exact .last (.blank isBlank_nil .nothing)
  | @cons f e fields es hf _ ih =>
    obtain ⟨k, value⟩ := f
    obtain ⟨name, v⟩ := e
    obtain ⟨rfl, hv⟩ := hf
    have hline : Line other _ _ := line_plain (hnames (k, v) List.mem_cons_self) hv
    have hdoc := Document.cons hline .newline (ih fun e he => hnames e (List.mem_cons_of_mem _ he))
    simpa [lineText, String.join_cons] using hdoc

theorem spells_toString {n : Nat} (h : n ≤ maxCount) :
    Spells (toString n).toList (.integer n) := by
  refine .integer ?_
  rw [Decimal.toList_toString, count?_write h]

theorem spells_arrayText {items : List String} {ns : List Nat}
    (h : List.Forall₂ (fun item n => Spells item.toList (.integer n)) items ns) :
    Spells (arrayText items).toList (.integers ns) := by
  have helements := elements_intercalate h isGap_nil
  simpa [arrayText] using Spells.integers helements

theorem writer_followsToml : writer.FollowsToml other where
  count h := ⟨_, rfl, spells_toString h⟩
  list h := ⟨_, rfl, spells_arrayText h⟩
  record h hnames _ := ⟨_, rfl, document_join h hnames⟩

end Toml

end PlanShape
