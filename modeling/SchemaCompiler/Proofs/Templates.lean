import SchemaCompiler.Proofs.Assoc
import SchemaCompiler.Proofs.Machine.Folding
import SchemaCompiler.Template

/-!
# Templates

A text is a template if it is put together from texts and placeholders, where only a text in front
of a placeholder may have closing braces in it. What a template is rendered to comes to the message:
its texts, and those of its parameters.
-/
namespace SchemaCompiler

open Machine

namespace Template

variable {held cs : List Char} {parts : List Part}

/-! ## Reading -/

def Part.written : Part → List Char
  | .text t => t.toList
  | .param name => '\x7b' :: name.toList ++ ['\x7d']

/-- How the parts of a template are spelled. -/
inductive Spells : List Part → List Char → Prop
  | last {text : List Char} (hopen : '\x7b' ∉ text) (hclose : '\x7d' ∉ text) :
      Spells (textPart text) text
  | param {text name rest : List Char} {parts : List Part} (hopen : '\x7b' ∉ text)
      (hname : name ≠ []) (hchars : ∀ c ∈ name, isParamChar c) (h : Spells parts rest) :
      Spells (textPart text ++ .param (String.ofList name) :: parts)
        (text ++ '\x7b' :: name ++ '\x7d' :: rest)

theorem flatMap_written_textPart (text : List Char) : (textPart text).flatMap Part.written = text := by
  cases text <;> simp [textPart, Part.written]

theorem Spells.written (h : Spells parts cs) : parts.flatMap Part.written = cs := by
  induction h with
  | last => exact flatMap_written_textPart _
  | param _ _ _ _ ih => simp [flatMap_written_textPart, Part.written, ih]

mutual
theorem spells_of_parseText : ∀ {held cs parts}, '\x7b' ∉ held → parseText held cs = .ok parts →
    Spells parts (held ++ cs)
  | held, [], parts, hheld, h => by
    rw [parseText] at h
    split at h
    · cases h
    · cases h
      rw [List.append_nil]
      exact .last hheld (by simp_all)
  | held, c :: rest, parts, hheld, h => by
    rw [parseText] at h
    split at h
    · next hc =>
      obtain ⟨others, hothers, ⟨⟩⟩ := bind_eq_ok.1 h
      simpa [hc] using spells_of_parseParam hheld hothers
    · next hc => simpa using spells_of_parseText (by simp [hheld, Ne.symm hc]) h

theorem spells_of_parseParam {text : List Char} (htext : '\x7b' ∉ text) : ∀ {held cs parts},
    parseParam held cs = .ok parts → Spells (textPart text ++ parts) (text ++ '\x7b' :: held ++ cs)
  | _, [], _, h => nomatch h
  | held, c :: rest, parts, h => by
    rw [parseParam] at h
    split at h
    · next hc =>
      split at h
      · cases h
      · next hname =>
        simp only [Bool.or_eq_true, not_or] at hname
        obtain ⟨others, hothers, ⟨⟩⟩ := bind_eq_ok.1 h
        rw [hc]
        exact .param htext (by simpa using hname.1) (by simpa using hname.2)
          (spells_of_parseText (by simp) hothers)
    · simpa using spells_of_parseParam htext h
end

theorem parseText_append {text : List Char} (h : '\x7b' ∉ text) (held cs : List Char) :
    parseText held (text ++ cs) = parseText (held ++ text) cs := by
  induction text generalizing held with
  | nil => simp
  | cons c text ih =>
    simp only [List.mem_cons, not_or] at h
    simp [parseText, Ne.symm h.1, ih h.2]

theorem parseParam_append {name : List Char} (h : ∀ c ∈ name, isParamChar c) (held cs : List Char) :
    parseParam held (name ++ cs) = parseParam (held ++ name) cs := by
  induction name generalizing held with
  | nil => simp
  | cons c name ih =>
    have hc : c ≠ '\x7d' := fun heq => by simpa [heq, isParamChar] using h c (by simp)
    simp [parseParam, hc, ih fun d hd => h d (by simp [hd])]

theorem Spells.parseText (h : Spells parts cs) : parseText [] cs = .ok parts := by
  induction h with
  | @last text hopen hclose =>
    have happend := parseText_append hopen [] []
    simp only [List.append_nil] at happend
    simp [happend, Template.parseText, hclose]
  | param hopen hname hchars _ ih =>
    simp only [List.append_assoc, List.cons_append]
    rw [parseText_append hopen, Template.parseText, if_pos rfl, parseParam_append hchars,
      parseParam, if_pos rfl, if_neg (by simpa [hname] using hchars), ih]
    rfl

/-- The texts that are templates, and the parts that they are read as. Written back, these give the
text. -/
theorem parse_iff_spells (s : String) (t : Template) : parse s = .ok t ↔
    Spells t.parts s.toList ∧ t.parts.flatMap Part.written = s.toList := by
  constructor
  · intro h
    cases hs : parseText [] s.toList with
    | error e => simp [parse, hs, Except.map] at h
    | ok parts =>
      simp only [parse, hs, Except.map, Except.ok.injEq] at h
      have hspells : Spells parts s.toList := spells_of_parseText (by simp) hs
      exact h ▸ ⟨hspells, hspells.written⟩
  · intro h
    simp [parse, h.1.parseText, Except.map]

/-- A closing brace in front of a placeholder. -/
theorem parse_stray : parse "\x7d\x7ba\x7d" = .ok ⟨[.text "\x7d", .param "a"]⟩ := rfl

/-! ## Rendering -/

/-- A value that is given for a parameter: as a literal, or as a variable of a name. -/
abbrev Given := Json × Option Name

def Given.passed : Given → Expr
  | (v, none) => .lit v
  | (_, some n) => .var n

/-- A variable has the value that it passes. A double that is written without a fraction behind a
text is not passed as a literal. -/
def Given.Passes (env : Env) (s : State) : Given → Prop
  | (v, some n) => ran (eval env (.var n)) s = (.ok v, s)
  | (.number (.float x), none) => ¬ (x.isIntegral && x.truncate.natAbs < 10 ^ 15) = true
  | _ => True

def passed (given : List (String × Given)) : List (String × Expr) :=
  given.map fun p => (p.1, p.2.passed)

/-- The text that a part stands for in a message. -/
def Part.message (given : List (String × Given)) : Part → String
  | .text t => t
  | .param name => ((Assoc.get? name given).map fun g => concatText g.1).getD ""

variable {env : Env} {s : State} {given : List (String × Given)}

theorem eval_piece (h : ∀ p ∈ given, p.2.Passes env s) (part : Part) :
    ∃ v, ran (eval env (piece (passed given) part)) s = (.ok v, s) ∧
      concatText v = part.message given := by
  cases part with
  | text t => exact ⟨.string t, rfl, rfl⟩
  | param name =>
    rw [Part.message, piece, passed, Assoc.get?_map fun _ => Given.passed]
    cases hg : Assoc.get? name given with
    | none => exact ⟨.string "", rfl, rfl⟩
    | some g =>
      have hpass := h _ (Assoc.mem_of_get?_eq_some hg)
      obtain ⟨v, _ | n⟩ := g
      · rcases v with _ | _ | ⟨_ | x⟩ | _ | _ | _
        case number.float => exact ⟨_, rfl, (if_neg hpass).symm⟩
        all_goals exact ⟨_, rfl, rfl⟩
      · exact ⟨v, hpass, rfl⟩

theorem eval_foldl_plus (h : ∀ p ∈ given, p.2.Passes env s) (parts : List Part) {e : Expr}
    (text : String) (he : ran (eval env e) s = (.ok (.string text), s)) :
    ran (eval env (parts.foldl (fun e part => e.plus (piece (passed given) part)) e)) s =
      (.ok (.string (text ++ String.join (parts.map (Part.message given)))), s) := by
  induction parts generalizing e text with
  | nil => simp [he]
  | cons part parts ih =>
    obtain ⟨v, hv, htext⟩ := eval_piece h part
    rw [List.foldl_cons, ih (text ++ part.message given)]
    · simp [String.append_assoc]
    · rw [eval_plus, eval, ran_bind, he, follow_ok, ran_bind, hv, ← htext]
      rfl

/-- However its parameters are passed, a template comes to its message: its texts, and the texts of
its parameters, in order. -/
theorem eval_render (t : Template) (h : ∀ p ∈ given, p.2.Passes env s) :
    ran (eval env (t.render (passed given))) s =
      (.ok (.string (String.join (t.parts.map (Part.message given)))), s) := by
  rw [render, eval_foldl_plus h t.parts "" rfl, String.empty_append]

/-- A text as a literal, and a double in a variable. -/
theorem eval_render_double :
    let n : Name := ⟨"limit", by decide⟩
    let given : List (String × Given) :=
      [("limit", .number (.float ⟨false, 1, 1⟩), some n), ("sign", .string ">=", none)]
    let env : Env := ⟨⟨[], [], 0⟩, fun _ _ => pure .null, 0⟩
    let s : State := ⟨[], [(n, .number (.float ⟨false, 1, 1⟩))]⟩
    ran (eval env (render ⟨[.param "sign", .text " ", .param "limit"]⟩ (passed given))) s =
      (.ok (.string ">= 2"), s) := by
  intro n given env s
  have hpasses : ∀ p ∈ given, p.2.Passes env s := by
    simp only [given, List.forall_mem_cons]
    exact ⟨rfl, trivial, nofun⟩
  exact eval_render _ hpasses

/-- As a literal the double is written with a fraction. -/
theorem render_literal_double :
    render ⟨[.param "limit"]⟩ [("limit", .lit (.number (.float ⟨false, 1, 1⟩)))] = .str "2.0" := by
  rfl

end Template
end SchemaCompiler
