import SchemaCompiler.Proofs.TypeDefinition.Admission
import SchemaCompiler.Proofs.TypeDefinition.Places

/-!
# Reading by a form recognizes the grammar

A scan reads a text, and a form takes a value as written. Here both are put together: what a scan
reads is the spelling of a value that the form takes, and a spelling of such a value is read. What is
read may have blanks within values that have no form of their own, also where the scan itself allows
none; otherwise it has blanks only where the scan allows them.

Lists are treated once: a loop over parts with commas between them folds over the parts.
-/
namespace SchemaCompiler.TypeDefinition

open Json (Blanks NoBlank Letters Spells SpellsField SpellsFields SpellsSome SpellsItems
  SpellsMembers TokenEnd)

variable {cs start : List Char} {routine : Primitive} {items : List Json} {σ : Type}
  {step : σ → String × Json → Option σ}

def Spelt (ws : Bool) (cs : List Char) (v : Json) (rest : List Char) : Prop :=
  ∃ start, Blanks ws cs start ∧ Spells ws start v rest

theorem Spelt.blanks {ws : Bool} {b rest : List Char} {v : Json} (hb : Blanks ws b cs)
    (h : Spelt ws cs v rest) : Spelt ws b v rest := by
  obtain ⟨start, hs, hv⟩ := h
  exact ⟨start, hb.trans hs, hv⟩

/-- A scan reads the spellings of the parts that are taken, and gives what they are taken as. Where
blanks are not allowed there are some only if `plain`, within values without a form of their own. -/
structure Follows {α β : Type} (ws plain : Bool) (scan : Scan β)
    (part : Bool → List Char → α → List Char → Prop) (take : α → Option β) : Prop where
  sound {cs rest : List Char} {y : β} : scan cs = some (y, rest) →
    ∃ x, part (ws || plain) cs x rest ∧ take x = some y
  complete {ws' : Bool} {cs rest : List Char} {x : α} {y : β} : (ws' = true → ws = true) →
    part ws' cs x rest → TokenEnd rest → cs.length < Machine.roundLimit → take x = some y →
    scan cs = some (y, rest)

abbrev Recognizes (ws plain : Bool) (scan : Scan Json) (accept : Json → Option Json) : Prop :=
  Follows ws plain scan Spelt accept

namespace Follows

variable {α β γ : Type} {ws plain : Bool} {scan : Scan β} {take : α → Option β}
  {part : Bool → List Char → α → List Char → Prop}

theorem fails : Follows ws plain (Scan.fails : Scan β) part fun _ => none where
  sound h := by cases h
  complete _ _ _ _ h := by cases h

/-- What has been read is looked at, and may be refused. -/
theorem filtered (h : Follows ws plain scan part take) (g : β → Option γ) :
    Follows ws plain (scan >>= fun y cs => (g y).map fun z => (z, cs)) part
      fun x => (take x).bind g where
  sound {cs rest z} hz := by
    simp only [Scan.bind_apply, Option.bind_eq_some_iff, Option.map_eq_some_iff] at hz
    obtain ⟨⟨y, _⟩, hy, _, hz, heq⟩ := hz
    cases heq
    obtain ⟨x, hx, htake⟩ := h.sound hy
    exact ⟨x, hx, by simpa [htake] using hz⟩
  complete hws hx hrest hlength hz := by
    obtain ⟨y, hy, hz⟩ := Option.bind_eq_some_iff.1 hz
    simp [Scan.bind_apply, h.complete hws hx hrest hlength hy, hz]

theorem map (h : Follows ws plain scan part take) (f : β → γ) : Follows ws plain (do
      let y ← scan
      return f y) part fun x => (take x).map f := by
  simp only [Option.map_eq_bind]
  exact h.filtered (some ∘ f)

theorem checked (h : Follows ws plain scan part take) (p : β → Bool) (f : β → γ) :
    Follows ws plain (do
      let y ← scan
      Scan.check (p y)
      return f y) part fun x => (take x).bind fun y => if p y then some (f y) else none := by
  have hcheck : (fun y => Scan.check (p y) >>= fun _ => pure (f y)) =
      fun y cs => (if p y then some (f y) else none).map fun z => (z, cs) := by
    funext y cs
    cases p y <;> simp [Scan.bind_apply]
  rw [hcheck]
  exact h.filtered _

/-- What is read are the values of a kind. -/
theorem of_view {mk : α → Json} {view : Json → Option α}
    {spells : Bool → List Char → Json → List Char → Prop}
    (h : Follows ws plain scan (fun ws cs x => spells ws cs (mk x)) take)
    (hview : ∀ {u x}, view u = some x ↔ u = mk x) :
    Follows ws plain scan spells fun u => (view u).bind take where
  sound hy := by
    obtain ⟨x, hx, htake⟩ := h.sound hy
    exact ⟨mk x, hx, by rw [hview.2 rfl]; exact htake⟩
  complete hws hu hrest hlength hy := by
    obtain ⟨x, hx, hy⟩ := Option.bind_eq_some_iff.1 hy
    exact h.complete hws (hview.1 hx ▸ hu) hrest hlength hy

end Follows

namespace Scan

variable {ws ws' plain : Bool} {t s closing key tag : String} {c : Char} {v u : Json}
  {stop b start' out rest : List Char} {item : Scan Json} {members : List (String × Json)}
  {accept : Json → Option Json} (hws : ws' = true → ws = true)

/-! ## Blanks and tokens -/

theorem blanks_behind (ws plain : Bool) (cs : List Char) :
    Blanks (ws || plain) cs (behind ws cs) := by
  cases ws with
  | false => exact .nil cs
  | true => exact Json.blanks_skipBlank cs

include hws in
theorem behind_eq (h : Blanks ws' cs start)
    (hstart : NoBlank start) : behind ws cs = start := by
  cases ws with
  | true => exact h.skipBlank hstart
  | false =>
    cases h with
    | nil => rfl
    | cons htrue _ _ => simp [htrue] at hws

theorem token_eq_some : token ws t cs = some ((), rest) ↔ behind ws cs = t.toList ++ rest := by
  have hlength : t.length = t.toList.length := String.length_toList.symm
  simp only [token, bind_apply, skip_apply, isAt_apply, check_apply, Option.bind_some]
  constructor
  · intro h
    split at h
    · rename_i hp
      obtain ⟨tail, htail⟩ := List.isPrefixOf_iff_prefix.1 hp
      simp only [Option.bind_some, advance_apply, Option.some_inj, Prod.mk.injEq, true_and,
        hlength, ← htail, List.drop_left] at h
      rw [← h, htail]
    · cases h
  · intro h
    simp [h, hlength]

include hws in
theorem token_of_blanks (t : String) (ht : t.toList = [c])
    (hc : Json.isBlank c = false) (h : Blanks ws' cs (c :: rest)) :
    token ws t cs = some ((), rest) := by
  rw [token_eq_some, behind_eq hws h (by simpa using hc), ht]
  rfl

theorem blanks_of_token (ht : t.toList = [c])
    (h : token ws t cs = some ((), rest)) : Blanks (ws || plain) cs (c :: rest) := by
  rw [token_eq_some, ht] at h
  have hb := blanks_behind ws plain cs
  rw [h] at hb
  exact hb

/-! ## Values -/

theorem shallow_of_nesting (h : v.nesting = 0) : Shallow v := by
  rw [Shallow, h]
  decide

theorem scalar_apply (routine : Primitive) (cs : List Char) :
    scalar ws routine cs = value routine (behind ws cs) := rfl

theorem value_sound (h : value routine cs = some (v, rest)) :
    ∃ u, Spelt true cs u rest ∧ v = u.settled ∧ Shallow u ∧ Json.Ends u rest := by
  unfold value at h
  split at h
  · cases hread : Json.readNext cs with
    | error fault => simp [hread, Except.toOption] at h
    | ok out =>
      simp only [hread, Except.toOption, Option.some_inj] at h
      subst h
      obtain ⟨start, u, hb, hu, rfl, hn, hends⟩ := Json.readNext_sound hread
      exact ⟨u, ⟨start, hb, hu⟩, rfl, hn, hends⟩
  · cases h

theorem value_of_spells (h : Spells ws cs u rest)
    (hrest : TokenEnd rest) (hn : Shallow u) (hopens : opens routine cs = true) :
    value routine cs = some (u.settled, rest) := by
  rw [value, if_pos hopens, Json.readNext_of_spells (.nil cs) h hrest hn]
  rfl

include hws in
theorem behind_of_spelt (h : Spelt ws' cs u rest) : Spells ws' (behind ws cs) u rest := by
  obtain ⟨start, hb, hu⟩ := h
  rw [behind_eq hws hb hu.noBlank]
  exact hu

theorem recognizes_plain (ws : Bool) : Recognizes ws true (scalar ws .parseValue) admitPlain where
  sound {cs rest v} h := by
    rw [scalar_apply] at h
    obtain ⟨u, hu, rfl, hn, -⟩ := value_sound h
    exact ⟨u, by simpa using hu.blanks (blanks_behind ws true cs).mono, if_pos hn⟩
  complete {ws' cs rest u v} hws hu hrest _ hv := by
    unfold admitPlain at hv
    split at hv
    · rename_i hn
      cases hv
      rw [scalar_apply]
      exact value_of_spells (behind_of_spelt hws hu) hrest hn rfl
    · cases hv

theorem text_apply (cs : List Char) : text ws cs =
    (value .parseString (behind ws cs)).bind fun y => y.1.string?.map fun s => (s, y.2) := by
  refine congrArg (value .parseString _).bind (funext fun y => ?_)
  obtain ⟨_ | _ | _ | _ | _ | _, _⟩ := y <;> rfl

theorem text_sound (plain : Bool) (h : text ws cs = some (s, rest)) :
    Spelt (ws || plain) cs (.string s) rest := by
  rw [text_apply] at h
  obtain ⟨⟨v, stop⟩, hv, h⟩ := Option.bind_eq_some_iff.1 h
  obtain ⟨s', hs, heq⟩ := Option.map_eq_some_iff.1 h
  cases heq
  obtain ⟨tail, letters, hstart, rfl, hletters⟩ := letters_of_value hv
  cases hs
  have hb := blanks_behind ws plain cs
  rw [hstart] at hb
  exact ⟨_, hb, .string hletters⟩

include hws in
theorem text_of_spelt
    (h : Spelt ws' cs (.string s) rest) (hrest : TokenEnd rest) : text ws cs = some (s, rest) := by
  have hspells := behind_of_spelt hws h
  have hopens : opens .parseString (behind ws cs) = true := by
    generalize behind ws cs = start at hspells
    cases hspells
    rfl
  rw [text_apply, value_of_spells hspells hrest (shallow_of_nesting rfl) hopens]
  rfl

theorem follows_text (ws plain : Bool) :
    Follows ws plain (text ws) (fun ws cs s => Spelt ws cs (.string s)) some where
  sound h := ⟨_, text_sound plain h, rfl⟩
  complete hws hu hrest _ hv := by
    cases hv
    exact text_of_spelt hws hu hrest

theorem recognizes_text (p : String → Bool)
    (h : ∀ u, accept u = u.string?.bind fun s => if p s then some (.string s) else none) :
    Recognizes ws plain (do
        let s ← text ws
        check (p s)
        return .string s) accept := by
  rw [funext h]
  exact ((follows_text ws plain).checked p Json.string).of_view string?_eq_some

theorem follows_number : Follows ws plain (scalar ws .parseNumber)
    (fun ws cs n => Spelt ws cs (.number n)) fun n => some (.number n) where
  sound {cs rest v} h := by
    obtain ⟨numeral, n, hstart, rfl, hn⟩ := numeral_of_value h
    have hb := blanks_behind ws plain cs
    rw [hstart] at hb
    exact ⟨n, ⟨_, hb, .number _ hn⟩, rfl⟩
  complete {ws' cs rest n v} hws hu hrest _ hv := by
    cases hv
    have hspells := behind_of_spelt hws hu
    have hopens : opens .parseNumber (behind ws cs) = true := by
      generalize behind ws cs = start at hspells
      cases hspells with
      | number _ hn =>
        obtain ⟨c, tail, rfl, hc⟩ := hn.exists_cons
        simpa [opens] using hc
    rw [scalar_apply, value_of_spells hspells hrest (shallow_of_nesting rfl) hopens,
      Json.settled_number]

theorem number?_eq_some {n : Json.Number} : u.number? = some n ↔ u = .number n := by
  cases u <;> simp [Json.number?]

theorem recognizes_number (p : Json → Bool)
    (h : ∀ u, accept u = u.number?.bind fun n => if p (.number n) then some (.number n) else none) :
    Recognizes ws plain (do
        let v ← scalar ws .parseNumber
        check (p v)
        return v) accept := by
  rw [funext h]
  exact (follows_number.checked p id).of_view number?_eq_some

/-! ## Parts with commas between them -/

/-- One part or more with commas between them; `rest` is what follows the blanks behind the last. -/
inductive Parts {α : Type} (ws : Bool) (part : List Char → α → List Char → Prop) :
    List Char → List α → List Char → Prop
  | last {cs stop rest : List Char} {x : α} (h : part cs x stop) (he : Blanks ws stop rest) :
      Parts ws part cs [x] rest
  | more {cs stop next rest : List Char} {x : α} {xs : List α} (h : part cs x stop)
      (hc : Blanks ws stop (',' :: next)) (hmore : Parts ws part next xs rest) :
      Parts ws part cs (x :: xs) rest

section Parts

variable {α σ : Type} {part : Bool → List Char → α → List Char → Prop} {member : σ → Scan σ}
  {step : σ → α → Option σ} {cs rest : List Char} {xs : List α} {so so' : σ}
  (hmember : ∀ so, Follows ws plain (member so) part (step so))

theorem Parts.blanks {part : List Char → α → List Char → Prop} (h : Parts ws part cs xs rest)
    (hb : Blanks ws rest stop) : Parts ws part cs xs stop := by
  induction h with
  | last h he => exact .last h (he.trans hb)
  | more h hc _ ih => exact .more h hc (ih hb)

/-- The first part, and whether it is the last or a comma follows. -/
theorem Parts.exists_stop {part : List Char → α → List Char → Prop} {c : Char} {x : α}
    (h : Parts ws part cs (x :: xs) (c :: rest)) (hc : Json.endsToken c = true) :
    ∃ stop, part cs x stop ∧ TokenEnd stop ∧ ((xs = [] ∧ Blanks ws stop (c :: rest)) ∨
      ∃ next, Blanks ws stop (',' :: next) ∧ Parts ws part next xs (c :: rest)) := by
  cases h with
  | last h he => exact ⟨_, h, he.tokenEnd (by simpa using hc), .inl ⟨rfl, he⟩⟩
  | more h hnext hmore =>
    exact ⟨_, h, hnext.tokenEnd (by simp [Json.endsToken]), .inr ⟨_, hnext, hmore⟩⟩

theorem comma_isPrefixOf : ",".toList.isPrefixOf cs = true ↔ ∃ next, cs = ',' :: next := by
  rw [List.isPrefixOf_iff_prefix]
  constructor
  · rintro ⟨next, rfl⟩
    exact ⟨next, rfl⟩
  · rintro ⟨next, rfl⟩
    exact ⟨next, rfl⟩

include hmember in
theorem separated_sound (h : separated ws member so cs = some (so', rest)) :
    ∃ xs, Parts (ws || plain) (part (ws || plain)) cs xs rest ∧ xs.foldlM step so = some so' := by
  have hrounds : ∀ rounds so cs, Machine.again
      (fun y => (round ws member y.1 y.2).map fun z => ((z.1.1, z.2), z.1.2)) rounds (so, cs) =
        some (so', rest) →
      ∃ xs, Parts (ws || plain) (part (ws || plain)) cs xs rest ∧ xs.foldlM step so = some so' := by
    intro rounds
    induction rounds with
    | zero => intro so cs h; cases h
    | succ rounds ih =>
      intro so cs h
      rw [Machine.again, round_apply] at h
      obtain ⟨⟨next, more⟩, hround, h⟩ := Option.bind_eq_some_iff.1 h
      obtain ⟨z, hz, heq⟩ := Option.map_eq_some_iff.1 hround
      cases heq
      obtain ⟨⟨y, stop⟩, hy, hz⟩ := Option.bind_eq_some_iff.1 hz
      obtain ⟨x, hx, hstep⟩ := (hmember so).sound hy
      have hb := blanks_behind ws plain stop
      split at hz
      · rename_i hcomma
        cases hz
        obtain ⟨tail, htail⟩ := comma_isPrefixOf.1 hcomma
        rw [htail] at hb h
        obtain ⟨xs, hxs, hfold⟩ := ih y tail (by simpa using h)
        exact ⟨x :: xs, .more hx hb hxs, by simp [hstep, hfold]⟩
      · cases hz
        cases h
        exact ⟨[x], .last hx hb, by simp [hstep]⟩
  exact hrounds _ so cs h

/-- What a part has to be for a loop to find it: it starts, behind blanks, with a character that
ends no list, and it is not longer than the text. -/
def Begins (ws : Bool) (closing : Char) (part : List Char → α → List Char → Prop) : Prop :=
  ∀ cs x stop, part cs x stop → ∃ c tail, behind ws cs = c :: tail ∧ c ≠ closing ∧
    part (behind ws cs) x stop ∧ stop.length ≤ cs.length

include hws hmember in
theorem separated_complete {closing : Char}
    (hbegins : Begins ws closing (part ws'))
    (h : Parts ws' (part ws') cs xs (closing :: rest)) (hclosing : closing = ']' ∨ closing = '\x7d')
    (hlength : cs.length < Machine.roundLimit) (hfold : xs.foldlM step so = some so') :
    separated ws member so cs = some (so', closing :: rest) := by
  have hplain : Json.isBlank closing = false ∧ Json.endsToken closing = true ∧ closing ≠ ',' := by
    rcases hclosing with rfl | rfl <;> decide
  have hrounds : ∀ rounds, cs.length < rounds → rounds ≤ Machine.roundLimit → Machine.again
      (fun y => (round ws member y.1 y.2).map fun z => ((z.1.1, z.2), z.1.2)) rounds (so, cs) =
        some (so', closing :: rest) := by
    clear hlength
    induction xs generalizing so cs with
    | nil => cases h
    | cons x xs ih =>
      intro rounds hrounds hlimit
      obtain _ | rounds := rounds
      · omega
      obtain ⟨stop, hx, hstop, hend⟩ := h.exists_stop hplain.2.1
      obtain ⟨y, hy, hrest⟩ := Option.bind_eq_some_iff.1 hfold
      have hread := (hmember so).complete hws hx hstop (by omega) hy
      rcases hend with ⟨rfl, he⟩ | ⟨next, hc, hmore⟩
      · cases hrest
        have hbehind : behind ws stop = closing :: rest := behind_eq hws he (by simpa using hplain.1)
        have hcomma : ",".toList.isPrefixOf (closing :: rest) = false := by
          simp [List.isPrefixOf, Ne.symm hplain.2.2]
        simp only [Machine.again, round_apply, hread, Option.bind_some, hbehind, hcomma,
          Bool.false_eq_true, if_false, Option.map_some]
      · obtain ⟨-, -, -, -, -, hle⟩ := hbegins cs x stop hx
        have hnext := hc.length_le
        rw [List.length_cons] at hnext
        have hbehind : behind ws stop = ',' :: next := behind_eq hws hc (by simp [Json.isBlank])
        have hrec := ih hmore hrest rounds (by omega) (by omega)
        simpa [Machine.again, round_apply, hread, hbehind] using hrec
  exact hrounds _ hlength (Nat.le_refl _)

def Inside (ws : Bool) (part : List Char → α → List Char → Prop) (closing : Char) (cs : List Char)
    (xs : List α) (rest : List Char) : Prop :=
  (xs = [] ∧ Blanks ws cs (closing :: rest)) ∨ Parts ws part cs xs (closing :: rest)

include hmember in
theorem listed_sound (h : listed ws closing member so cs = some (so', stop))
    (hend : Blanks (ws || plain) stop (c :: rest)) :
    ∃ xs, Inside (ws || plain) (part (ws || plain)) c (behind ws cs) xs rest ∧
      xs.foldlM step so = some so' := by
  rw [listed_apply] at h
  split at h
  · cases h
    exact ⟨[], .inl ⟨rfl, hend⟩, rfl⟩
  · obtain ⟨xs, hxs, hfold⟩ := separated_sound hmember h
    exact ⟨xs, .inr (hxs.blanks hend), hfold⟩

theorem Parts.behind {part : List Char → α → List Char → Prop} {c : Char}
    (hbegins : Begins ws c part) (h : Parts ws' part cs xs rest) :
    Parts ws' part (behind ws cs) xs rest ∧ ∃ d tail, Scan.behind ws cs = d :: tail ∧ d ≠ c := by
  cases h with
  | last hx he =>
    obtain ⟨d, tail, hd, hne, hx', -⟩ := hbegins _ _ _ hx
    exact ⟨.last hx' he, d, tail, hd, hne⟩
  | more hx hc hmore =>
    obtain ⟨d, tail, hd, hne, hx', -⟩ := hbegins _ _ _ hx
    exact ⟨.more hx' hc hmore, d, tail, hd, hne⟩

theorem length_behind_le (ws : Bool) (cs : List Char) : (behind ws cs).length ≤ cs.length :=
  (blanks_behind ws ws cs).length_le

include hmember in
theorem listed_complete (hclosing : closing.toList = [c]) (hc : c = ']' ∨ c = '\x7d')
    (hws : ws' = true → ws = true) (hbegins : Begins ws c (part ws'))
    (h : Inside ws' (part ws') c cs xs rest)
    (hlength : cs.length < Machine.roundLimit) (hfold : xs.foldlM step so = some so') :
    listed ws closing member so cs = some (so', c :: rest) := by
  rw [listed_apply]
  rcases h with ⟨rfl, hb⟩ | h
  · cases hfold
    have hplain : Json.isBlank c = false := by rcases hc with rfl | rfl <;> decide
    simp [behind_eq hws hb (by simpa using hplain), hclosing]
  · obtain ⟨hparts, d, tail, hd, hne⟩ := h.behind hbegins
    have hopen : closing.toList.isPrefixOf (behind ws cs) = false := by
      simp [hd, hclosing, List.isPrefixOf, Ne.symm hne]
    have hle := length_behind_le ws cs
    simp only [hopen]
    exact separated_complete hws hmember hbegins hparts hc (by omega) hfold

end Parts

/-! ## Arrays -/

theorem parts_of_spellsSome {cs rest : List Char} {items : List Json}
    (h : SpellsSome ws cs items rest) : Parts ws (Spelt ws) cs items (']' :: rest) := by
  induction items generalizing cs with
  | nil => cases h
  | cons v items ih =>
    cases h with
    | last hb hv he => exact .last ⟨_, hb, hv⟩ he
    | more hb hv hc h => exact .more ⟨_, hb, hv⟩ hc (ih h)

theorem spellsSome_of_parts
    (h : Parts ws (Spelt ws) cs items (']' :: rest)) : SpellsSome ws cs items rest := by
  generalize hstop : ']' :: rest = stop at h
  induction h with
  | last h he =>
    subst hstop
    obtain ⟨start, hb, hv⟩ := h
    exact .last hb hv he
  | more h hc _ ih =>
    obtain ⟨start, hb, hv⟩ := h
    exact .more hb hv hc (ih hstop)

theorem inside_of_spellsItems
    (h : SpellsItems ws cs items rest) : Inside ws (Spelt ws) ']' cs items rest := by
  cases h with
  | close hb => exact .inl ⟨rfl, hb⟩
  | some h => exact .inr (parts_of_spellsSome h)

theorem spellsItems_of_inside (hb : Blanks ws b cs)
    (h : Inside ws (Spelt ws) ']' cs items rest) : SpellsItems ws b items rest := by
  rcases h with ⟨rfl, he⟩ | h
  · exact .close (hb.trans he)
  · exact .some ((spellsSome_of_parts h).blanks hb)

include hws in
theorem begins_spelt : Begins ws ']' (Spelt ws') := by
  intro cs u stop h
  have hspells := behind_of_spelt hws h
  obtain ⟨start, hb, hu⟩ := h
  obtain ⟨c, tail, hc, -, hne⟩ := hspells.exists_cons
  have hstart := hb.length_le
  have hpos := hu.length_lt
  exact ⟨c, tail, hc, hne, ⟨_, .nil _, hspells⟩, by omega⟩

theorem foldlM_append (accept : Json → Option Json) (items so : List Json) :
    items.foldlM (fun so u => (accept u).map fun v => so ++ [v]) so =
      (items.mapM accept).map (so ++ ·) := by
  induction items generalizing so with
  | nil => simp
  | cons u rest ih =>
    simp only [List.foldlM_cons, List.mapM_cons]
    cases accept u with
    | none => rfl
    | some v =>
      simp only [ih]
      cases rest.mapM accept with
      | none => rfl
      | some vs => simp

theorem recognizes_elements (h : Recognizes ws plain item accept) :
    Recognizes ws plain (do
        token ws "["
        let items ← listed ws "]" (fun items => do
          let v ← item
          return items ++ [v]) []
        token ws "]"
        return .array items)
      fun u => u.array?.bind fun items => (items.mapM accept).map .array where
  sound {cs rest v} hv := by
    simp only [bind_apply, Option.bind_eq_some_iff] at hv
    obtain ⟨⟨_, inner⟩, hopen, ⟨vs, stop⟩, hlisted, ⟨_, rest'⟩, hclose, hend⟩ := hv
    cases hend
    obtain ⟨items, hinside, hfold⟩ :=
      listed_sound (fun so => h.map (so ++ [·])) hlisted (blanks_of_token rfl hclose)
    rw [foldlM_append] at hfold
    refine ⟨.array items, ⟨_, blanks_of_token rfl hopen,
      .array (spellsItems_of_inside (blanks_behind ws plain inner) hinside)⟩, ?_⟩
    simpa [Json.array?] using hfold
  complete {ws' cs rest u v} hws hu hrest hlength hv := by
    obtain ⟨items, hitems, hv⟩ := Option.bind_eq_some_iff.1 hv
    rw [array?_eq_some] at hitems
    subst hitems
    obtain ⟨vs, hvs, rfl⟩ := Option.map_eq_some_iff.1 hv
    obtain ⟨start, hb, hspells⟩ := hu
    cases hspells with
    | @array inner _ _ hinner =>
      have hle := hb.length_le
      rw [List.length_cons] at hle
      have hlisted : listed ws "]" _ [] inner = some (vs, ']' :: rest) :=
        listed_complete (fun so => h.map (so ++ [·])) rfl (.inl rfl) hws (begins_spelt hws)
          (inside_of_spellsItems hinner) (by omega) (by simp [foldlM_append, hvs])
      have hclose : token ws "]" (']' :: rest) = some ((), rest) :=
        token_of_blanks hws "]" rfl (by decide) (.nil _)
      simp only [bind_apply, token_of_blanks hws "[" rfl (by decide) hb, Option.bind_some, hlisted,
        hclose]
      rfl

/-! ## Objects -/

def SpellsKey (ws : Bool) (cs : List Char) (key : String) (start : List Char) : Prop :=
  ∃ name letters colon, Blanks ws cs ('"' :: name) ∧ Letters name letters colon ∧
    Blanks ws colon (':' :: start) ∧ key = String.ofList letters

theorem spellsField_iff {m : String × Json} :
    SpellsField ws cs m rest ↔ ∃ start, SpellsKey ws cs m.1 start ∧ Spelt ws start m.2 rest := by
  constructor
  · rintro ⟨hb, hk, hc, hs, hv⟩
    exact ⟨_, ⟨_, _, _, hb, hk, hc, rfl⟩, _, hs, hv⟩
  · obtain ⟨key, v⟩ := m
    rintro ⟨start, ⟨name, letters, colon, hb, hk, hc, rfl⟩, value, hs, hv⟩
    exact .mk hb hk hc hs hv

theorem SpellsKey.length_lt (h : SpellsKey ws cs key start) : start.length < cs.length := by
  obtain ⟨name, letters, colon, hb, hk, hc, -⟩ := h
  have hopen := hb.length_le
  have hkey := hk.length_lt
  have hcolon := hc.length_le
  simp only [List.length_cons] at hopen hcolon
  omega

theorem SpellsKey.blanks (h : SpellsKey ws cs key start)
    (hb : Blanks ws b cs) : SpellsKey ws b key start := by
  obtain ⟨name, letters, colon, hopen, hrest⟩ := h
  exact ⟨name, letters, colon, hb.trans hopen, hrest⟩

theorem SpellsKey.unique {key' : String} (h : SpellsKey ws cs key start)
    (h' : SpellsKey ws' cs key' start') : key = key' ∧ start = start' := by
  obtain ⟨name, letters, colon, hb, hk, hc, rfl⟩ := h
  obtain ⟨name', letters', colon', hb', hk', hc', rfl⟩ := h'
  have hname : '"' :: name = '"' :: name' := by
    rw [← hb.skipBlank (by simp [Json.isBlank]), ← hb'.skipBlank (by simp [Json.isBlank])]
  cases hname
  have hread := Json.readChars_of_letters hk
  rw [Json.readChars_of_letters hk'] at hread
  cases hread
  have hcolon : ':' :: start = ':' :: start' := by
    rw [← hc.skipBlank (by simp [Json.isBlank]), ← hc'.skipBlank (by simp [Json.isBlank])]
  cases hcolon
  exact ⟨rfl, rfl⟩

section Keys

variable {α : Type} {f : String → Scan α} {cs start : List Char}

theorem keyed_sound (plain : Bool) {out : α × List Char} (h : (do
      let key ← text ws
      token ws ":"
      f key : Scan α) cs = some out) :
    ∃ key start, SpellsKey (ws || plain) cs key start ∧ f key start = some out := by
  simp only [bind_apply, Option.bind_eq_some_iff] at h
  obtain ⟨⟨key, colon⟩, hkey, ⟨_, start⟩, hcolon, h⟩ := h
  obtain ⟨quote, hb, hspells⟩ := text_sound plain hkey
  refine ⟨key, start, ?_, h⟩
  generalize hv : Json.string key = v at hspells
  cases hspells with
  | string hletters =>
    cases hv
    exact ⟨_, _, colon, hb, hletters, blanks_of_token rfl hcolon, rfl⟩
  | _ => cases hv

include hws in
theorem keyed_of_spellsKey (h : SpellsKey ws' cs key start) : (do
      let key ← text ws
      token ws ":"
      f key : Scan α) cs = f key start := by
  obtain ⟨name, letters, colon, hb, hk, hc, rfl⟩ := h
  have htext := text_of_spelt hws ⟨_, hb, .string hk⟩ (hc.tokenEnd (by simp [Json.endsToken]))
  simp [bind_apply, htext, token_of_blanks hws ":" rfl (by decide) hc]

end Keys

include hws in
theorem begins_field : Begins ws '\x7d' (SpellsField ws') := by
  intro cs m stop h
  obtain ⟨start, ⟨name, letters, colon, hb, hk, hc, hkey⟩, hv⟩ := spellsField_iff.1 h
  have hbehind : behind ws cs = '"' :: name := behind_eq hws hb (by simp [Json.isBlank])
  have hlength := h.length_lt
  rw [hbehind]
  exact ⟨'"', name, rfl, by decide,
    spellsField_iff.2 ⟨start, ⟨name, letters, colon, .nil _, hk, hc, hkey⟩, hv⟩, by omega⟩

theorem follows_members {read : σ → String → Scan σ}
    (h : ∀ so key, Follows ws plain (read so key) Spelt fun u => step so (key, u)) (so : σ) :
    Follows ws plain (do
        let key ← text ws
        token ws ":"
        read so key) SpellsField (step so) where
  sound {cs stop so'} hm := by
    obtain ⟨key, start, hkey, hread⟩ := keyed_sound plain hm
    obtain ⟨u, hu, hstep⟩ := (h so key).sound hread
    exact ⟨(key, u), spellsField_iff.2 ⟨start, hkey, hu⟩, hstep⟩
  complete {ws' cs stop m so'} hws hm hstop hlength hstep := by
    obtain ⟨start, hkey, hv⟩ := spellsField_iff.1 hm
    have hlt := hkey.length_lt
    rw [keyed_of_spellsKey hws hkey]
    exact (h so m.1).complete hws hv hstop (by omega) hstep

theorem parts_of_spellsFields {cs rest : List Char} {members : List (String × Json)}
    (h : SpellsFields ws cs members rest) :
    Parts ws (SpellsField ws) cs members ('\x7d' :: rest) := by
  induction members generalizing cs with
  | nil => cases h
  | cons m members ih =>
    cases h with
    | last hm he => exact .last hm he
    | more hm hc h => exact .more hm hc (ih h)

theorem spellsFields_of_parts (h : Parts ws (SpellsField ws) cs members ('\x7d' :: rest)) :
    SpellsFields ws cs members rest := by
  generalize hstop : '\x7d' :: rest = stop at h
  induction h with
  | last h he =>
    subst hstop
    exact .last h he
  | more h hc _ ih => exact .more h hc (ih hstop)

theorem inside_of_spellsMembers (h : SpellsMembers ws cs members rest) :
    Inside ws (SpellsField ws) '\x7d' cs members rest := by
  cases h with
  | close hb => exact .inl ⟨rfl, hb⟩
  | some h => exact .inr (parts_of_spellsFields h)

theorem spellsMembers_of_inside (hb : Blanks ws b cs)
    (h : Inside ws (SpellsField ws) '\x7d' cs members rest) : SpellsMembers ws b members rest := by
  rcases h with ⟨rfl, he⟩ | h
  · exact .close (hb.trans he)
  · exact .some ((spellsFields_of_parts h).blanks hb)

/-- An object is read member by member, and then what has been gathered is looked at. -/
theorem recognizes_object {member : σ → Scan σ}
    (h : ∀ so, Follows ws plain (member so) SpellsField (step so)) (so : σ)
    (result : σ → Option Json) :
    Recognizes ws plain (do
        token ws "\x7b"
        let all ← listed ws "\x7d" member so
        token ws "\x7d"
        fun cs => (result all).map fun v => (v, cs))
      fun u => u.object?.bind fun members => (members.foldlM step so).bind result where
  sound {cs rest v} hv := by
    simp only [bind_apply, Option.bind_eq_some_iff] at hv
    obtain ⟨⟨_, inner⟩, hopen, ⟨all, stop⟩, hlisted, ⟨_, rest'⟩, hclose, hend⟩ := hv
    obtain ⟨w, hw, heq⟩ := Option.map_eq_some_iff.1 hend
    cases heq
    obtain ⟨members, hinside, hfold⟩ :=
      listed_sound h hlisted (blanks_of_token rfl hclose)
    refine ⟨.object members, ⟨_, blanks_of_token rfl hopen,
      .object (spellsMembers_of_inside (blanks_behind ws plain inner) hinside)⟩, ?_⟩
    simpa [Json.object?, hfold] using hw
  complete {ws' cs rest u v} hws hu hrest hlength hv := by
    simp only [Option.bind_eq_some_iff] at hv
    obtain ⟨members, hmembers, all, hfold, hresult⟩ := hv
    rw [object?_eq_some] at hmembers
    subst hmembers
    obtain ⟨start, hb, hspells⟩ := hu
    cases hspells with
    | @object inner _ _ hinner =>
      have hle := hb.length_le
      rw [List.length_cons] at hle
      have hlisted : listed ws "\x7d" member so inner = some (all, '\x7d' :: rest) :=
        listed_complete h rfl (.inr rfl) hws (begins_field hws) (inside_of_spellsMembers hinner)
          (by omega) hfold
      have hclose : token ws "\x7d" ('\x7d' :: rest) = some ((), rest) :=
        token_of_blanks hws "\x7d" rfl (by decide) (.nil _)
      simp [bind_apply, token_of_blanks hws "\x7b" rfl (by decide) hb, hlisted,
        hclose, hresult]

theorem recognizes_values (h : Recognizes ws plain item accept) :
    Recognizes ws plain (do
        token ws "\x7b"
        let members ← listed ws "\x7d" (fun members => do
          let key ← text ws
          token ws ":"
          let v ← item
          return Assoc.insert key v members) []
        token ws "\x7d"
        return .object members)
      fun u => u.object?.bind fun members =>
        (members.foldlM (fun so m => (accept m.2).map fun v => Assoc.insert m.1 v so) []).map
          .object := by
  have hmember : ∀ so : List _, Follows ws plain (do
      let key ← text ws
      token ws ":"
      let v ← item
      return Assoc.insert key v so) SpellsField
      fun m => (accept m.2).map fun v => Assoc.insert m.1 v so :=
    follows_members fun so key => h.map _
  have hobject := recognizes_object hmember [] (some ∘ Json.object)
  simp only [← Option.map_eq_bind] at hobject
  exact hobject

/-! ## Known members -/

section Members

variable {known : String → Option (Scan Json)} {takes : String → Option (Json → Option Json)}
  {additional : Bool} {tag : Option String} (hplain : additional = true → plain = true)
  (hknown : ∀ key, Option.Rel (Recognizes ws plain) (known key) (takes key))

include hplain hknown

theorem follows_knownOr (so : List (String × Json) × Bool) (key : String) :
    Follows ws plain (knownOr (known key) key so (unknown ws additional tag key so)) Spelt
      fun u => admitMember takes additional tag so (key, u) := by
  have hkey := hknown key
  simp only [admitMember]
  generalize known key = scan at hkey ⊢
  generalize takes key = read at hkey ⊢
  cases hkey with
  | some hread => exact hread.map _
  | none =>
    simp only [unknown]
    by_cases htag : tag = some key
    · simp only [if_pos htag]
      cases so.2 with
      | true => exact .fails
      | false =>
        have htext := ((follows_text ws plain).of_view string?_eq_some).map fun _ => (so.1, true)
        simp only [Option.bind_fun_some] at htext
        exact htext
    · simp only [if_neg htag]
      split
      · obtain rfl := hplain ‹_›
        exact (recognizes_plain ws).map _
      · exact .fails

theorem follows_member (tag : Option String) (so : List (String × Json) × Bool) :
    Follows ws plain (member ws known additional tag so) SpellsField
      (admitMember takes additional tag so) :=
  follows_members (follows_knownOr hplain hknown) so

end Members

/-! ## Tags -/

theorem blanks_unique (h : Blanks ws cs start) (h' : Blanks ws' cs start')
    (hstart : NoBlank start) (hstart' : NoBlank start') : start = start' := by
  rw [← h.skipBlank hstart, h'.skipBlank hstart']

theorem spelt_unique {rest' : List Char} {u' : Json} (h : Spelt ws cs u rest)
    (hrest : Json.Ends u rest) (h' : Spelt ws' cs u' rest') (hrest' : Json.Ends u' rest') :
    u = u' ∧ rest = rest' := by
  obtain ⟨start, hb, hu⟩ := h
  obtain ⟨start', hb', hu'⟩ := h'
  cases blanks_unique hb hb' hu.noBlank hu'.noBlank
  exact hu.unique hrest hu' hrest'

theorem seek_sound {so so' : Option String} {more : Bool}
    (hb : Blanks true cs b) (hfield : SpellsField ws' cs (key, v) stop) (hstop : TokenEnd stop)
    (h : seek ws tag so b = some ((so', more), out)) :
    (key = tag ∧ v.string? = so' ∧ more = false) ∨
      (key ≠ tag ∧ Shallow v ∧ so' = so ∧
        (more = true → Blanks true stop (',' :: out))) := by
  obtain ⟨key', start, hread, h⟩ := keyed_sound true h
  obtain ⟨start', hkey, hv⟩ := spellsField_iff.1 hfield
  have hkey' : SpellsKey true cs key' start := by simpa using hread.blanks (by simpa using hb)
  obtain ⟨rfl, rfl⟩ := hkey'.unique hkey
  by_cases htag : key' = tag
  · rw [if_pos htag] at h
    simp only [bind_apply, skip_apply, isAt_apply, check_apply, Option.bind_some,
      Option.bind_eq_some_iff] at h
    obtain ⟨⟨_, _⟩, hcheck, ⟨s, _⟩, hs, hend⟩ := h
    cases hend
    split at hcheck
    · cases hcheck
      have hstring := (text_sound true hs).blanks (blanks_behind ws true start)
      obtain ⟨rfl, -⟩ := spelt_unique hstring (by intro n hn; cases hn) hv (hstop.numberEnd.ends v)
      exact .inl ⟨htag, rfl, rfl⟩
    · cases hcheck
  · rw [if_neg htag] at h
    simp only [bind_apply, skip_apply, isAt_apply, Option.bind_some, Option.bind_eq_some_iff] at h
    obtain ⟨⟨w, rest⟩, hw, hend⟩ := h
    rw [scalar_apply] at hw
    obtain ⟨u, hu, -, hn, hends⟩ := value_sound hw
    obtain ⟨rfl, rfl⟩ := spelt_unique (hu.blanks (blanks_behind ws true start).mono) hends hv
      (hstop.numberEnd.ends v)
    refine .inr ⟨htag, hn, ?_⟩
    split at hend
    · rename_i hcomma
      obtain ⟨next, hnext⟩ := comma_isPrefixOf.1 hcomma
      simp only [hnext] at hend
      cases hend
      have hblanks := (blanks_behind ws true rest).mono
      rw [hnext] at hblanks
      exact ⟨rfl, fun _ => hblanks⟩
    · cases hend
      exact ⟨rfl, by simp⟩

theorem admitTag_of_again {value : String} (rounds : Nat)
    (hb : Blanks true cs b) (hmembers : Parts ws' (SpellsField ws') cs members ('\x7d' :: rest))
    (h : Machine.again (fun y => (seek ws tag y.1 y.2).map fun z => ((z.1.1, z.2), z.1.2)) rounds
      (none, b) = some (some value, out)) : admitTag tag members = some value := by
  induction members generalizing rounds cs b with
  | nil => cases hmembers
  | cons m members ih =>
    obtain _ | rounds := rounds
    · cases h
    simp only [Machine.again, Option.bind_eq_some_iff, Option.map_eq_some_iff] at h
    obtain ⟨_, ⟨⟨⟨so', more⟩, next⟩, hseek, rfl⟩, hagain⟩ := h
    obtain ⟨stop, hfield, hstop, hend⟩ := hmembers.exists_stop (by decide)
    rcases seek_sound hb hfield hstop hseek with ⟨htag, hstring, rfl⟩ | ⟨htag, hshallow, rfl, hmore⟩
    · simp only [Bool.false_eq_true, if_false, Option.some_inj, Prod.mk.injEq] at hagain
      rw [admitTag, if_pos htag, hstring, hagain.1]
    · cases more with
      | false => simp at hagain
      | true =>
        rw [admitTag, if_neg htag, if_pos hshallow]
        rcases hend with ⟨-, he⟩ | ⟨next', hc, hrest⟩
        · cases blanks_unique he (hmore rfl) (by simp [Json.isBlank]) (by simp [Json.isBlank])
        · cases blanks_unique hc (hmore rfl) (by simp [Json.isBlank]) (by simp [Json.isBlank])
          exact ih rounds (.nil _) hrest hagain

theorem admitTag_of_findTag {value : String}
    (hmembers : Parts ws' (SpellsField ws') cs members ('\x7d' :: rest))
    (h : findTag ws tag cs = some (value, out)) : admitTag tag members = some value := by
  rw [findTag_apply] at h
  simp only [Option.bind_eq_some_iff, Option.map_eq_some_iff] at h
  obtain ⟨⟨found, stop⟩, hfound, value', hvalue, heq⟩ := h
  cases heq
  subst hvalue
  split at hfound
  · cases hfound
  · exact admitTag_of_again _ (blanks_behind ws true _).mono hmembers hfound

theorem eq_of_findTag {value : String} (h : findTag ws tag cs = some (value, out)) : out = cs := by
  rw [findTag_apply] at h
  simp only [Option.bind_eq_some_iff, Option.map_eq_some_iff] at h
  obtain ⟨_, -, _, -, heq⟩ := h
  cases heq
  rfl

include hws in
theorem seek_found {value : String}
    (h : SpellsField ws' cs (tag, .string value) stop) (hstop : TokenEnd stop)
    (so : Option String) : seek ws tag so cs = some ((some value, false), stop) := by
  obtain ⟨start, hkey, hv⟩ := spellsField_iff.1 h
  have hspells := behind_of_spelt hws hv
  have hquote : "\"".toList.isPrefixOf (behind ws start) = true := by
    generalize behind ws start = start at hspells
    cases hspells
    rfl
  have htext : text ws _ = some (value, stop) :=
    text_of_spelt hws ⟨_, .nil _, hspells⟩ hstop
  unfold seek
  rw [keyed_of_spellsKey hws hkey]
  simp only [bind_apply, skip_apply, isAt_apply, check_apply, Option.bind_some, hquote, if_true, htext]
  rfl

include hws in
theorem seek_next (htag : key ≠ tag)
    (hshallow : Shallow v) {next : List Char} (h : SpellsField ws' cs (key, v) stop)
    (hc : Blanks ws' stop (',' :: next)) (so : Option String) :
    seek ws tag so cs = some ((so, true), next) := by
  obtain ⟨start, hkey, hv⟩ := spellsField_iff.1 h
  have hstop : TokenEnd stop := hc.tokenEnd (by simp [Json.endsToken])
  have hscalar : scalar ws .parseValue start = some (v.settled, stop) := by
    rw [scalar_apply]
    exact value_of_spells (behind_of_spelt hws hv) hstop hshallow rfl
  have hbehind : behind ws stop = ',' :: next := behind_eq hws hc (by simp [Json.isBlank])
  unfold seek
  rw [keyed_of_spellsKey hws hkey, if_neg htag]
  simp only [bind_apply, hscalar, skip_apply, Option.bind_some, hbehind]
  rfl

include hws in
theorem again_of_admitTag {value : String}
    (hmembers : Parts ws' (SpellsField ws') cs members ('\x7d' :: rest))
    (h : admitTag tag members = some value) (rounds : Nat) (hrounds : cs.length < rounds) :
    ∃ out, Machine.again (fun y => (seek ws tag y.1 y.2).map fun z => ((z.1.1, z.2), z.1.2)) rounds
      (none, cs) = some (some value, out) := by
  induction members generalizing rounds cs with
  | nil => cases hmembers
  | cons m members ih =>
    obtain ⟨key, v⟩ := m
    obtain _ | rounds := rounds
    · omega
    obtain ⟨stop, hfield, hstop, hend⟩ := hmembers.exists_stop (by decide)
    simp only [admitTag] at h
    split at h
    · rename_i htag
      subst htag
      rw [string?_eq_some] at h
      subst h
      exact ⟨stop, by simp [Machine.again, seek_found hws hfield hstop]⟩
    · rename_i htag
      split at h
      · rename_i hshallow
        rcases hend with ⟨rfl, -⟩ | ⟨next, hc, hmore⟩
        · cases h
        have hlt := hfield.length_lt
        have hle := hc.length_le
        rw [List.length_cons] at hle
        obtain ⟨out, hout⟩ := ih hmore h rounds (by omega)
        exact ⟨out, by simpa [Machine.again, seek_next hws htag hshallow hfield hc] using hout⟩
      · cases h

include hws in
theorem findTag_of_admitTag {value : String}
    (hmembers : Parts ws' (SpellsField ws') cs members ('\x7d' :: rest))
    (h : admitTag tag members = some value) (hlength : cs.length < Machine.roundLimit) :
    findTag ws tag cs = some (value, cs) := by
  obtain ⟨hparts, d, tail, hd, hne⟩ := hmembers.behind (begins_field hws)
  have hle := length_behind_le ws cs
  obtain ⟨out, hout⟩ := again_of_admitTag hws hparts h Machine.roundLimit (by omega)
  have hopen : "\x7d".toList.isPrefixOf (behind ws cs) = false := by
    simp [hd, List.isPrefixOf, Ne.symm hne]
  have hrepeated : repeated (seek ws tag) none _ = some _ := hout
  simp only [findTag_apply, hopen, Bool.false_eq_true, if_false, hrepeated, Option.bind_some,
    Option.map_some]

/-- A scan reads the members of an object up to its end. -/
abbrev RecognizesMembers (ws plain : Bool) (scan : Scan Json)
    (accept : List (String × Json) → Option Json) : Prop :=
  Follows ws plain scan (fun ws cs members rest =>
    Parts ws (SpellsField ws) cs members ('\x7d' :: rest)) accept

theorem recognizes_tagged
    {scan : String → Scan Json} {accept : String → List (String × Json) → Option Json}
    (h : ∀ value, RecognizesMembers ws plain (scan value) (accept value)) :
    Recognizes ws plain (do
        skip ws
        token ws "\x7b"
        let value ← findTag ws tag
        scan value)
      fun u => u.object?.bind fun members => (admitTag tag members).bind fun value =>
        accept value members where
  sound {cs rest v} hv := by
    simp only [bind_apply, skip_apply, Option.bind_some, Option.bind_eq_some_iff] at hv
    obtain ⟨⟨_, inner⟩, hopen, ⟨value, _⟩, hfind, hscan⟩ := hv
    cases eq_of_findTag hfind
    obtain ⟨members, hmembers, haccept⟩ := (h value).sound hscan
    refine ⟨.object members, ⟨_, (blanks_behind ws plain cs).trans (blanks_of_token rfl hopen),
      .object (.some (spellsFields_of_parts hmembers))⟩, ?_⟩
    simp [Json.object?, admitTag_of_findTag hmembers hfind, haccept]
  complete {ws' cs rest u v} hws hu hrest hlength hv := by
    simp only [Option.bind_eq_some_iff] at hv
    obtain ⟨members, hobject, value, htag, haccept⟩ := hv
    rw [object?_eq_some] at hobject
    subst hobject
    have hspells := behind_of_spelt hws hu
    have hle := length_behind_le ws cs
    generalize hstart : behind ws cs = start at hspells hle
    cases hspells with
    | @object inner _ _ hinner =>
      rw [List.length_cons] at hle
      cases hinner with
      | close _ => cases htag
      | some hfields =>
        have hparts := parts_of_spellsFields hfields
        have hopen : token ws "\x7b" ('\x7b' :: inner) = some ((), inner) :=
          token_of_blanks hws "\x7b" rfl (by decide) (.nil _)
        simp only [bind_apply, skip_apply, Option.bind_some, hstart, hopen,
          findTag_of_admitTag hws hparts htag (by omega)]
        exact (h value).complete hws hparts hrest (by omega) haccept

theorem recognizes_nothing {accept : List (String × Json) → Option Json}
    (hnil : accept [] = some (.object [])) (hcons : ∀ m members, accept (m :: members) = none) :
    Recognizes ws plain (do
        token ws "\x7b"
        token ws "\x7d"
        return .object [])
      fun u => u.object?.bind accept where
  sound {cs rest v} hv := by
    simp only [bind_apply, Option.bind_eq_some_iff] at hv
    obtain ⟨⟨_, inner⟩, hopen, ⟨_, _⟩, hclose, hend⟩ := hv
    cases hend
    exact ⟨.object [], ⟨_, blanks_of_token rfl hopen,
      .object (.close (blanks_of_token rfl hclose))⟩, by simp [Json.object?, hnil]⟩
  complete {ws' cs rest u v} hws hu _ _ hv := by
    obtain ⟨members, hobject, haccept⟩ := Option.bind_eq_some_iff.1 hv
    rw [object?_eq_some] at hobject
    subst hobject
    obtain ⟨start, hb, hspells⟩ := hu
    cases members with
    | cons m members => simp [hcons] at haccept
    | nil =>
      rw [hnil, Option.some_inj] at haccept
      subst haccept
      cases hspells with
      | object hinner =>
        cases hinner with
        | close hclose =>
          simp only [bind_apply, token_of_blanks hws "\x7b" rfl (by decide) hb, Option.bind_some,
            token_of_blanks hws "\x7d" rfl (by decide) hclose]
          rfl
        | some hfields => cases hfields

theorem close_bind (required : List String) (members : List (String × Json)) :
    (close ws required members >>= fun _ => pure (Json.object members) : Scan Json) =
      token ws "\x7d" >>= fun _ cs => (if required.all fun name => Assoc.contains name members then
        some (Json.object members) else none).map fun v => (v, cs) := by
  simp only [close, bind_assoc]
  congr 1
  funext _ cs
  simp only [bind_apply, check_apply]
  split <;> rfl

end Scan

namespace Form

open Scan

variable {ws plain additional : Bool} {onScan : String → Scan Json}
  {onAdmit : String → Json → Option Json} {required optional : List (String × Form)} {v : Json}

section Properties

variable (hplain : additional = true → plain = true)
  (hknown : ∀ key, Option.Rel (Recognizes ws plain)
    ((scanKnown ws onScan key required).or (scanKnown ws onScan key optional))
    ((admitKnown onAdmit key required).or (admitKnown onAdmit key optional)))

include hplain hknown

theorem recognizes_properties :
    Recognizes ws plain ((properties required optional additional).scan ws onScan)
      ((properties required optional additional).accept onAdmit) := by
  by_cases hnone : (required.isEmpty && optional.isEmpty && !additional) = true
  · simp only [Bool.and_eq_true, List.isEmpty_iff, Bool.not_eq_true'] at hnone
    obtain ⟨⟨rfl, rfl⟩, rfl⟩ := hnone
    exact recognizes_nothing rfl fun _ _ => rfl
  · have hobject := recognizes_object (follows_member hplain hknown none) ([], false)
      fun all => if (required.map Prod.fst).all fun name => Assoc.contains name all.1 then
        some (.object all.1) else none
    simp only [scan, if_neg hnone, close_bind]
    exact hobject

theorem recognizes_selected (tag value : String) :
    RecognizesMembers ws plain
      (scanSelected ws onScan tag value (properties required optional additional))
      fun members => admitSelected onAdmit tag value members
        (properties required optional additional) where
  sound {cs rest v} hv := by
    simp only [scanSelected, close_bind, bind_apply, Option.bind_eq_some_iff] at hv
    obtain ⟨⟨all, stop⟩, hseparated, ⟨_, _⟩, hclose, hend⟩ := hv
    obtain ⟨w, hw, heq⟩ := Option.map_eq_some_iff.1 hend
    cases heq
    obtain ⟨members, hmembers, hfold⟩ :=
      separated_sound (follows_member hplain hknown (some tag)) hseparated
    refine ⟨members, hmembers.blanks (blanks_of_token rfl hclose), ?_⟩
    simpa [admitSelected, admitMembers, hfold] using hw
  complete {ws' cs rest members v} hws hmembers _ hlength hv := by
    simp only [admitSelected, admitMembers, Option.bind_eq_some_iff] at hv
    obtain ⟨all, hfold, hresult⟩ := hv
    have hclose : token ws "\x7d" ('\x7d' :: rest) = some ((), rest) :=
      token_of_blanks hws "\x7d" rfl (by decide) (.nil _)
    have hseparated := separated_complete hws (follows_member hplain hknown (some tag))
      (begins_field hws) hmembers (.inr rfl) hlength hfold
    simp only [scanSelected, close_bind, bind_apply, hseparated, Option.bind_some, hclose, hresult,
      Option.map_some]

end Properties

theorem null_of_spells {rest : List Char} {u : Json} (h : Spells ws ('n' :: cs) u rest) :
    u = .null := by
  generalize hstart : 'n' :: cs = start at h
  cases h with
  | null => rfl
  | number _ hn =>
    obtain ⟨c, tail, rfl, hc⟩ := hn.exists_cons
    simp only [List.cons_append, List.cons.injEq] at hstart
    rw [← hstart.1] at hc
    simp at hc
  | _ => simp at hstart

theorem admit_null (hrefs : ∀ name v, onAdmit name .null = some v → v = .null) {form : Form}
    (h : form.accept onAdmit .null = some v) : v = .null := by
  cases form with
  | ref name => exact hrefs name v (by rwa [accept] at h)
  | type t =>
    rw [accept] at h
    split at h <;> cases h
    rfl
  | empty | nullable =>
    cases h
    rfl
  | _ =>
    cases h

theorem recognizes_nullable {form : Form}
    (h : Recognizes ws plain (form.scan ws onScan) (form.accept onAdmit))
    (hform : ∀ v, form.accept onAdmit .null = some v → v = .null) :
    Recognizes ws plain ((nullable form).scan ws onScan) ((nullable form).accept onAdmit) where
  sound {cs rest v} hv := by
    simp only [scan, bind_apply, skip_apply, isAt_apply, Option.bind_some] at hv
    split at hv
    · rename_i hnull
      obtain ⟨tail, htail⟩ := List.isPrefixOf_iff_prefix.1 hnull
      simp only [← htail] at hv
      cases hv
      have hb := blanks_behind ws plain cs
      rw [← htail] at hb
      exact ⟨.null, ⟨_, hb, .null _⟩, by simp [accept]⟩
    · obtain ⟨u, hu, haccept⟩ := h.sound hv
      refine ⟨u, hu.blanks (blanks_behind ws plain cs), ?_⟩
      rw [accept]
      split
      · rename_i heq
        rw [hform v (heq ▸ haccept)]
      · exact haccept
  complete {ws' cs rest u v} hws hu hrest hlength hv := by
    have hspells := behind_of_spelt hws hu
    have hle := length_behind_le ws cs
    rw [accept] at hv
    simp only [scan, bind_apply, skip_apply, isAt_apply, Option.bind_some]
    split at hv
    · rename_i hnull
      subst hnull
      cases hv
      generalize behind ws cs = start at hspells
      cases hspells
      rfl
    · rename_i hnull
      have hstart : ¬ "null".toList.isPrefixOf (behind ws cs) = true := by
        intro hp
        obtain ⟨tail, htail⟩ := List.isPrefixOf_iff_prefix.1 hp
        rw [← htail] at hspells
        exact hnull (null_of_spells hspells)
      rw [if_neg hstart]
      exact h.complete hws ⟨_, .nil _, hspells⟩ hrest (by omega) hv

theorem recognizes_boolean :
    Recognizes ws plain (ScalarType.boolean.scan ws)
    fun u => if ScalarType.boolean.holds u then some u else none where
  sound {cs rest v} hv := by
    have hb := blanks_behind ws plain cs
    rw [ScalarType.scan_boolean_apply] at hv
    split at hv
    · rename_i htrue
      obtain ⟨tail, htail⟩ := List.isPrefixOf_iff_prefix.1 htrue
      rw [← htail] at hv hb
      cases hv
      exact ⟨.bool true, ⟨_, hb, .boolTrue _⟩, rfl⟩
    · split at hv
      · rename_i hfalse
        obtain ⟨tail, htail⟩ := List.isPrefixOf_iff_prefix.1 hfalse
        rw [← htail] at hv hb
        cases hv
        exact ⟨.bool false, ⟨_, hb, .boolFalse _⟩, rfl⟩
      · cases hv
  complete {ws' cs rest u v} hws hu _ _ hv := by
    split at hv
    · rename_i hholds
      cases hv
      have hspells := behind_of_spelt hws hu
      rw [ScalarType.scan_boolean_apply]
      generalize behind ws cs = start at hspells
      cases u with
      | bool b => cases hspells <;> rfl
      | _ => cases hholds
    · cases hv

theorem recognizes_type (t : ScalarType) :
    Recognizes ws plain (t.scan ws) fun u => if t.holds u then some u else none := by
  cases hbounds : t.bounds? with
  | some bounds =>
    simpa only [ScalarType.scan, ScalarType.holds, hbounds] using
      recognizes_number _ fun u => by cases u <;> rfl
  | none =>
    cases t with
    | boolean => exact recognizes_boolean
    | string => exact recognizes_text (fun _ => true) fun u => by cases u <;> rfl
    | timestamp => exact recognizes_text Calendar.isTimestamp fun u => by cases u <;> rfl
    | float32 | float64 =>
      refine cast (congrArg _ (funext fun u => ?_)) (follows_number.of_view number?_eq_some)
      cases u <;> rfl
    | _ => cases hbounds

theorem rel_or {known known' : Option (Scan Json)} {takes takes' : Option (Json → Option Json)}
    (h : Option.Rel (Recognizes ws plain) known takes)
    (h' : Option.Rel (Recognizes ws plain) known' takes') :
    Option.Rel (Recognizes ws plain) (known.or known') (takes.or takes') := by
  cases h with
  | some h => exact .some h
  | none => exact h'

mutual
/-- Whether every value has a form of its own: no value is of the empty form, and no object has
members that are not known. -/
def isTyped : Form → Bool
  | empty => false
  | ref _ => true
  | type _ => true
  | enum _ => true
  | elements item => isTyped item
  | values item => isTyped item
  | nullable form => isTyped form
  | properties required optional additional => !additional && allTyped required && allTyped optional
  | discriminator _ mapping => allTyped mapping

def allTyped : List (String × Form) → Bool
  | [] => true
  | (_, form) :: rest => isTyped form && allTyped rest
end

/-- How the forms of names are read: their scans recognize the values that are taken, and `null` only
as `null`. -/
structure RecognizesRefs (ws plain : Bool) (onScan : String → Scan Json)
    (onAdmit : String → Json → Option Json) : Prop where
  scans : ∀ name, Recognizes ws plain (onScan name) (onAdmit name)
  null : ∀ name v, onAdmit name .null = some v → v = .null

theorem typed_properties
    (h : plain = false → (properties required optional additional).isTyped = true) :
    (additional = true → plain = true) ∧ (plain = false → allTyped required = true) ∧
      (plain = false → allTyped optional = true) := by
  cases plain with
  | true => simp
  | false => simpa [isTyped, and_assoc] using h

variable (hr : RecognizesRefs ws plain onScan onAdmit)

include hr

set_option linter.unusedSectionVars false in
mutual
theorem recognizes :
    (form : Form) → (plain = false → form.isTyped = true) →
      Recognizes ws plain (form.scan ws onScan) (form.accept onAdmit)
  | .empty, h => by
    obtain rfl : plain = true := by simpa [isTyped] using h
    simpa only [scan, accept] using recognizes_plain ws
  | .ref name, _ => by simpa only [scan, accept] using hr.scans name
  | .type t, _ => by simpa only [scan, accept] using recognizes_type t
  | .enum texts, _ => by
    simpa only [scan] using recognizes_text texts.contains fun u => by cases u <;> rfl
  | .elements item, h => by
    simpa only [scan, accept] using recognizes_elements (recognizes item h)
  | .values item, h => by
    simpa only [scan, accept] using recognizes_values (recognizes item h)
  | .properties required optional additional, h =>
    have ⟨hplain, hrequired, hoptional⟩ := typed_properties h
    recognizes_properties hplain fun key =>
      rel_or (recognizesKnown key required hrequired) (recognizesKnown key optional hoptional)
  | .discriminator tag mapping, h => by
    simpa only [scan, accept] using
      recognizes_tagged (recognizesMapped tag · mapping h)
  | .nullable form, h =>
    recognizes_nullable (recognizes form h) fun _ => admit_null hr.null

theorem recognizesKnown (key : String) :
    (members : List (String × Form)) → (plain = false → allTyped members = true) →
      Option.Rel (Recognizes ws plain) (scanKnown ws onScan key members)
        (admitKnown onAdmit key members)
  | [], _ => .none
  | (name, form) :: rest, h => by
    simp only [allTyped, Bool.and_eq_true, forall_and] at h
    rw [scanKnown, admitKnown]
    split
    · exact .some (recognizes form h.1)
    · exact recognizesKnown key rest h.2

theorem recognizesMapped (tag value : String) :
    (mapping : List (String × Form)) → (plain = false → allTyped mapping = true) →
      RecognizesMembers ws plain (scanMapped ws onScan tag value mapping)
        fun members => admitMapped onAdmit tag value members mapping
  | [], _ => .fails
  | (name, form) :: rest, h => by
    simp only [allTyped, Bool.and_eq_true, forall_and] at h
    simp only [scanMapped, admitMapped]
    split
    · exact recognizesSelected tag value form h.1
    · exact recognizesMapped tag value rest h.2

theorem recognizesSelected (tag value : String) :
    (form : Form) → (plain = false → form.isTyped = true) →
      RecognizesMembers ws plain (scanSelected ws onScan tag value form)
        fun members => admitSelected onAdmit tag value members form
  | .properties required optional _, h =>
    have ⟨hplain, hrequired, hoptional⟩ := typed_properties h
    recognizes_selected hplain (fun key =>
      rel_or (recognizesKnown key required hrequired) (recognizesKnown key optional hoptional))
      tag value
  | .empty, _ | .ref _, _ | .type _, _ | .enum _, _ | .elements _, _ | .values _, _
  | .discriminator _ _, _ | .nullable _, _ => .fails
end

end Form

end SchemaCompiler.TypeDefinition
