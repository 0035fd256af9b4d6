import Lazuli.Codegen.Naming

/-!
The words that the identifiers of a feature's package spell.

Each identifier is a list of words in camel case: the words of a name, with the resource of a
command behind its verb, the plural of a resource behind `list`, and a fixed word such as `input`
or `handle` at an end. Types and functions begin with a capital (`Exported`), variables do not
(`Unexported`).
-/

namespace Lazuli.Codegen

open Ir Lazuli.Runtime Lazuli.General.CamelCase

/-! ### What an identifier spells -/

structure Exported (ident : String) (ws : List Word) : Prop where
  text : ident.toList = upperCamel ws
  speakable : Speakable ws
  nonempty : ws ≠ []

structure Unexported (ident : String) (ws : List Word) : Prop where
  text : ident.toList = camel ws
  speakable : Speakable ws
  nonempty : ws ≠ []

section Spelling

variable {s t : String} {ws vs : List Word}

theorem Exported.eq_iff (hs : Exported s ws) (ht : Exported t vs) :
    s = t ↔ fuse ws = fuse vs := by
  rw [← String.toList_inj, hs.text, ht.text]
  exact upperCamel_eq_iff hs.speakable ht.speakable

theorem Unexported.eq_iff (hs : Unexported s ws) (ht : Unexported t vs) :
    s = t ↔ fuse ws = fuse vs := by
  rw [← String.toList_inj, hs.text, ht.text]
  exact camel_eq_iff hs.speakable ht.speakable

theorem Exported.ne_unexported (hs : Exported s ws) (ht : Unexported t vs) : s ≠ t := by
  rw [Ne, ← String.toList_inj, hs.text, ht.text]
  exact upperCamel_ne_camel hs.speakable ht.speakable hs.nonempty

/-- More words behind the ones that are spelled. -/
theorem Exported.append (hs : Exported s ws) (ht : t.toList = upperCamel vs)
    (hvs : ∀ w ∈ vs, Spoken w) : Exported (s ++ t) (ws ++ vs) where
  text := by rw [String.toList_append, hs.text, ht, upperCamel_append]
  speakable := hs.speakable.append hvs hs.nonempty
  nonempty := List.append_ne_nil_of_left_ne_nil hs.nonempty vs

theorem Unexported.append (hs : Unexported s ws) (ht : t.toList = upperCamel vs)
    (hvs : ∀ w ∈ vs, Spoken w) : Unexported (s ++ t) (ws ++ vs) where
  text := by rw [String.toList_append, hs.text, ht, camel_append hs.nonempty]
  speakable := hs.speakable.append hvs hs.nonempty
  nonempty := List.append_ne_nil_of_left_ne_nil hs.nonempty vs

theorem exported_pascalCase (h : isName s = true) : Exported (pascalCase s) (nameWords s) :=
  ⟨toList_pascalCase s, speakable_nameWords h, nameWords_ne_nil h⟩

theorem unexported_lowerCamel (h : isName s = true) : Unexported (lowerCamel s) (leadingWords s) :=
  ⟨toList_lowerCamel s, speakable_leadingWords h, leadingWords_ne_nil h⟩

end Spelling

/-! ### The words of the identifiers -/

def word (s : String) : Word := s.toList

def modifierReading (shortName : String) : List Word := (modifierWords shortName).flatMap nameWords

/-- The words of the type that the effect names. -/
def effectReading (c : CommandDecl) : List Word :=
  ((effectType c).map nameWords).getD [word "result"]

/-- Verb, resource and modifiers. -/
def inputReading (c : CommandDecl) : List Word :=
  nameWords (verb c.name) ++ effectReading c ++ modifierReading c.name

/-- The same with the verb as one word. -/
def commandReading (c : CommandDecl) : List Word :=
  (verb c.name).toList.map Char.toLower :: (effectReading c ++ modifierReading c.name)

def axisReading (f : FeatureDecl) (q : Query) : List Word :=
  ((resourceForQuery f q.name).map fun r => nameWords r.name).getD [word "result"]

/-- A word of one letter is a capital by itself, so it has no ending. -/
def pluralWord (w : Word) : Word := if w.length ≤ 1 then w ++ ['s'] else plural w

def pluralReading : List Word → List Word
  | [] => []
  | [w] => [pluralWord w]
  | w :: v :: ws => w :: pluralReading (v :: ws)

/-- How the name of a query is read: as `own`, but with the plural of its resource behind `list`,
and with its resource, read as `axis`, before `by`. -/
def queryReading (f : FeatureDecl) (q : Query) (axis own : List Word) : List Word :=
  if q.kind = .list ∧ q.name = "list" then word "list" :: pluralReading (axisReading f q)
  else if q.kind = .lookup ∧ isByName q.name then axis ++ nameWords q.name
  else own

def argsReading (f : FeatureDecl) (q : Query) : List Word :=
  queryReading f q (axisReading f q) (nameWords q.name)

def queryVarReading (f : FeatureDecl) (q : Query) : List Word :=
  queryReading f q (leadingWords (resourceAxis f q.name)) (leadingWords q.name)

/-- All names are names, and so are those of the types that effects refer to. -/
structure Named (f : FeatureDecl) : Prop where
  types : ∀ t ∈ typeNames f, isName t = true
  commands : ∀ c ∈ f.commands, isName c.name = true
  effects : ∀ c ∈ f.commands, ∀ t ∈ effectType c, isName t = true
  queries : ∀ q ∈ f.queries, isName q.name = true

/-! ### Parts of a command's name -/

section Parts

variable {s : String}

theorem mem_splitOn {l : List Char} :
    ∀ w ∈ l.splitOn '_', ∀ c ∈ w, c ∈ l ∧ c ≠ '_' := by
  induction l with
  | nil => simp
  | cons d l ih =>
      have later : ∀ w ∈ l.splitOn '_', ∀ c ∈ w, c ∈ d :: l ∧ c ≠ '_' :=
        fun w hw c hc => (ih w hw c hc).imp (List.mem_cons_of_mem d) id
      rw [List.splitOn_cons_eq_if_modifyHead]
      split
      · intro w hw
        rcases List.mem_cons.mp hw with rfl | hw
        · simp
        · exact later w hw
      · rename_i hd
        cases hsplit : l.splitOn '_' with
        | nil => exact absurd hsplit (List.splitOn_ne_nil _ _)
        | cons v vs =>
            rw [hsplit] at later
            intro w hw c hc
            rcases List.mem_cons.mp hw with rfl | hw
            · rcases List.mem_cons.mp hc with rfl | hc
              · exact ⟨List.mem_cons_self, by simpa using hd⟩
              · exact later v List.mem_cons_self c hc
            · exact later w (List.mem_cons_of_mem v hw) c hc

theorem isAlphanum_of_mem_nameParts (h : isName s = true) :
    ∀ part ∈ nameParts s, ∀ c ∈ part.toList, c.isAlphanum = true := by
  intro part hpart c hc
  obtain ⟨w, hw, rfl⟩ := List.mem_map.mp hpart
  obtain ⟨hmem, hne⟩ := mem_splitOn w hw c (by simpa using hc)
  simpa [hne] using List.all_eq_true.mp (isName_iff.mp h).2 c hmem

theorem verb_mem_nameParts (s : String) : verb s ∈ nameParts s := by
  unfold verb
  cases hparts : nameParts s with
  | nil => exact absurd (List.map_eq_nil_iff.mp hparts) (List.splitOn_ne_nil _ _)
  | cons part parts => exact List.mem_cons_self

/-- The verb is a name too: it begins where the name does. -/
theorem isName_verb (h : isName s = true) : isName (verb s) = true := by
  refine isName_iff.mpr ⟨?_, List.all_eq_true.mpr fun c hc => ?_⟩
  · have hhead := (isName_iff.mp h).1
    unfold verb nameParts
    cases hs : s.toList with
    | nil => simp [hs] at hhead
    | cons c rest =>
        have hc : c.isAlpha = true := by simpa [hs] using hhead
        have hsep : ¬ (c == '_') = true := by
          intro same
          obtain rfl := beq_iff_eq.mp same
          exact absurd hc (by decide)
        rw [List.splitOn_cons_eq_if_modifyHead, if_neg hsep]
        cases hsplit : rest.splitOn '_' with
        | nil => exact absurd hsplit (List.splitOn_ne_nil _ _)
        | cons w ws => simpa using hc
  · simp [isAlphanum_of_mem_nameParts h (verb s) (verb_mem_nameParts s) c hc]

theorem spoken_modifierReading (h : isName s = true) : ∀ w ∈ modifierReading s, Spoken w := by
  intro w hw
  obtain ⟨part, hpart, hw⟩ := List.mem_flatMap.mp hw
  refine spoken_nameWords (List.all_eq_true.mpr fun c hc => ?_) w hw
  simp [isAlphanum_of_mem_nameParts h part (List.mem_of_mem_tail hpart) c hc]

theorem toList_join_modifiers (s : String) :
    (String.join ((modifierWords s).map pascalCase)).toList = upperCamel (modifierReading s) := by
  rw [String.toList_join, modifierReading]
  induction modifierWords s with
  | nil => rfl
  | cons part parts ih => simp [toList_pascalCase, ih]

/-- The verb as one word. -/
theorem unexported_verb (h : isName s = true) :
    Unexported (String.ofList ((verb s).toList.map Char.toLower))
      [(verb s).toList.map Char.toLower] where
  text := by simp
  speakable := by
    obtain ⟨hhead, -⟩ := isName_iff.mp (isName_verb h)
    constructor
    · intro w hw
      obtain rfl := List.mem_singleton.mp hw
      constructor
      · intro hnil
        simp [List.map_eq_nil_iff.mp hnil] at hhead
      · intro d hd
        obtain ⟨c, hc, rfl⟩ := List.mem_map.mp hd
        exact lower_or_digit_toLower
          (isAlphanum_of_mem_nameParts h (verb s) (verb_mem_nameParts s) c hc)
    · revert hhead
      cases (verb s).toList with
      | nil => simp
      | cons c rest => simp [opens]
  nonempty := List.cons_ne_nil _ _

end Parts

/-! ### Plurals -/

section Plural

variable {w : Word} {ws : List Word} {s t : List Char}

theorem plural_append (h : t ≠ []) : plural (s ++ t) = s ++ plural t := by
  have hlast : (s ++ t).getLast? = t.getLast? := by
    obtain ⟨c, hc⟩ := Option.ne_none_iff_exists'.mp fun none =>
      h (List.getLast?_eq_none_iff.mp none)
    rw [List.getLast?_append, hc, Option.some_or]
  unfold plural
  rw [hlast]
  split
  · rw [List.dropLast_append_of_ne_nil h, List.append_assoc]
  · rw [List.append_assoc]
  · rw [List.append_assoc]

theorem mem_plural {c : Char} (h : c ∈ plural w) : c ∈ w ∨ c ∈ ['i', 'e', 's'] := by
  unfold plural at h
  split at h
  · exact (List.mem_append.mp h).imp (fun hc => List.dropLast_subset _ hc) id
  · exact (List.mem_append.mp h).imp id (List.mem_cons_of_mem 'i')
  · exact (List.mem_append.mp h).imp id fun hc => by simp [List.mem_singleton.mp hc]

theorem plural_ne_nil (w : Word) : plural w ≠ [] := by
  unfold plural
  split <;> simp

theorem plural_singleton {d : Char} (h : d.isLower = false) : plural [d] = [d, 's'] := by
  unfold plural
  split
  · rename_i last
    obtain rfl : d = 'y' := by simpa using last
    cases h
  · rename_i last
    obtain rfl : d = 's' := by simpa using last
    cases h
  · rfl

theorem capital_pluralWord (h : w ≠ []) : capital (pluralWord w) = plural (capital w) := by
  match w, h with
  | [c], _ =>
      simp [pluralWord, capital, plural_singleton (Char.isLower_toUpper_eq_false c)]
  | c :: d :: rest, _ =>
      have tail (e : Char) : plural (e :: d :: rest) = e :: plural (d :: rest) :=
        plural_append (s := [e]) (List.cons_ne_nil d rest)
      simp [pluralWord, tail, capital]

theorem upperCamel_pluralReading (h : ws ≠ []) (hws : ∀ w ∈ ws, Spoken w) :
    upperCamel (pluralReading ws) = plural (upperCamel ws) := by
  induction ws with
  | nil => exact absurd rfl h
  | cons w ws ih =>
      have hw : w ≠ [] := (hws w List.mem_cons_self).1
      cases ws with
      | nil => simp [pluralReading, capital_pluralWord hw]
      | cons v ws =>
          have rest := ih (List.cons_ne_nil v ws) fun u hu => hws u (List.mem_cons_of_mem w hu)
          have hv : capital v ≠ [] := by
            cases v with
            | nil => exact absurd rfl (hws [] (by simp)).1
            | cons c v => exact List.cons_ne_nil _ _
          rw [pluralReading, upperCamel_cons, rest, upperCamel_cons w, plural_append]
          simp [hv]

theorem spoken_pluralReading (hws : ∀ w ∈ ws, Spoken w) : ∀ w ∈ pluralReading ws, Spoken w := by
  have one {w : Word} (hw : Spoken w) : Spoken (pluralWord w) := by
    unfold pluralWord
    split
    · exact hw.append ⟨List.cons_ne_nil _ _, fun c hc => by
        obtain rfl := List.mem_singleton.mp hc
        exact .inl rfl⟩
    · refine ⟨plural_ne_nil w, fun c hc => ?_⟩
      rcases mem_plural hc with hc | hc
      · exact hw.2 c hc
      · simp only [List.mem_cons, List.not_mem_nil, or_false] at hc
        rcases hc with rfl | rfl | rfl <;> exact .inl rfl
  induction ws with
  | nil => simp [pluralReading]
  | cons w ws ih =>
      have hw := hws w List.mem_cons_self
      cases ws with
      | nil => simpa [pluralReading] using one hw
      | cons v ws =>
          have rest := ih fun u hu => hws u (List.mem_cons_of_mem w hu)
          intro u hu
          rcases List.mem_cons.mp hu with rfl | hu
          · exact hw
          · exact rest u hu

end Plural

/-! ### The identifiers -/

theorem speakable_word {w : Word} (h : (!w.isEmpty && w.all Char.isLower) = true) :
    Speakable [w] := by
  simp only [Bool.and_eq_true, Bool.not_eq_true', List.isEmpty_eq_false_iff,
    List.all_eq_true] at h
  constructor
  · intro v hv
    obtain rfl := List.mem_singleton.mp hv
    exact ⟨h.1, fun c hc => .inl (h.2 c hc)⟩
  · cases w with
    | nil => exact absurd rfl h.1
    | cons c w => simpa [opens] using h.2 c List.mem_cons_self

section Identifiers

variable {f : FeatureDecl} {c : CommandDecl} {q : Query} {r : Resource} {s : String}

theorem exported_result : Exported "Result" [word "result"] :=
  ⟨rfl, speakable_word rfl, List.cons_ne_nil _ _⟩

theorem resourceForQuery_mem (h : resourceForQuery f s = some r) : r ∈ f.resources := by
  have chosen (better : Resource → Resource → Bool) (first : Resource) (rest : List Resource) :
      rest.foldl (fun best r => if better best r then best else r) first ∈ first :: rest := by
    induction rest generalizing first with
    | nil => exact List.mem_cons_self
    | cons d rest ih =>
        rw [List.foldl_cons]
        rcases List.mem_cons.mp (ih (if better first d then first else d)) with hd | hd
        · rw [hd]
          split <;> simp
        · exact List.mem_cons_of_mem _ (List.mem_cons_of_mem _ hd)
  unfold resourceForQuery at h
  split at h
  · cases h
  · rename_i first rest hsort
    have hr := chosen (fun best r => decide (resourceScore s r < resourceScore s best ∨
      resourceScore s r = resourceScore s best ∧ best.name < r.name)) first rest
    simp only [decide_eq_true_eq] at hr
    rw [Option.some.inj h, ← hsort] at hr
    exact (List.mem_insertionSort _).mp hr

theorem exported_effect (h : ∀ t ∈ effectType c, isName t = true) :
    Exported (effectResourcePascal c) (effectReading c) := by
  unfold effectResourcePascal effectReading
  cases heffect : effectType c with
  | none => exact exported_result
  | some t => exact exported_pascalCase (h t heffect)

theorem mem_typeNames (hr : r ∈ f.resources) : r.name ∈ typeNames f := by
  simp only [typeNames, List.mem_append, List.mem_map]
  exact .inl (.inl ⟨r, hr, rfl⟩)

theorem exported_axis (h : Named f) (q : Query) :
    Exported (resourceAxis f q.name) (axisReading f q) := by
  unfold resourceAxis axisReading
  cases hr : resourceForQuery f q.name with
  | none => exact exported_result
  | some r => exact exported_pascalCase (h.types _ (mem_typeNames (resourceForQuery_mem hr)))

theorem isName_resourceAxis (h : Named f) (q : Query) : isName (resourceAxis f q.name) = true := by
  unfold resourceAxis
  cases hr : resourceForQuery f q.name with
  | none => rfl
  | some r => exact isName_pascalCase (h.types _ (mem_typeNames (resourceForQuery_mem hr)))

theorem exported_input (hc : isName c.name = true) (he : ∀ t ∈ effectType c, isName t = true) :
    Exported (commandInputStructName c.name (effectResourcePascal c))
      (inputReading c ++ [word "input"]) := by
  have effect := exported_effect he
  exact (((exported_pascalCase (isName_verb hc)).append effect.text effect.speakable.spoken).append
    (toList_join_modifiers c.name) (spoken_modifierReading hc)).append rfl
    (speakable_word rfl).spoken

theorem unexported_command (hc : isName c.name = true) (he : ∀ t ∈ effectType c, isName t = true) :
    Unexported (commandVarName c.name (effectResourcePascal c)) (commandReading c) := by
  have effect := exported_effect he
  exact ((unexported_verb hc).append effect.text effect.speakable.spoken).append
    (toList_join_modifiers c.name) (spoken_modifierReading hc)

theorem exported_handler (hc : isName c.name = true) :
    Exported (commandHandlerFuncName c.name) (word "handle" :: nameWords c.name) :=
  Exported.append ⟨rfl, speakable_word rfl, List.cons_ne_nil _ _⟩ (toList_pascalCase c.name)
    (speakable_nameWords hc).spoken

theorem unexported_resource (h : isName r.name = true) :
    Unexported (resourceVarName r) (leadingWords r.name ++ [word "resource"]) :=
  (unexported_lowerCamel h).append rfl (speakable_word rfl).spoken

theorem toList_pluralPascal {ws : List Word} (h : Exported s ws) :
    (pluralPascal s).toList = upperCamel (pluralReading ws) := by
  rw [pluralPascal, String.toList_ofList, h.text,
    upperCamel_pluralReading h.nonempty h.speakable.spoken]

theorem exported_args (h : Named f) (hq : q ∈ f.queries) :
    Exported (queryArgsStructName f q) (argsReading f q ++ [word "args"]) := by
  have name := exported_pascalCase (h.queries q hq)
  have axis := exported_axis h q
  have list : Exported "List" [word "list"] := ⟨rfl, speakable_word rfl, List.cons_ne_nil _ _⟩
  have args {s : String} {ws : List Word} (hs : Exported s ws) :
      Exported (s ++ "Args") (ws ++ [word "args"]) := hs.append rfl (speakable_word rfl).spoken
  unfold queryArgsStructName argsReading queryReading
  cases hk : q.kind with
  | list =>
      by_cases hname : q.name = "list"
      · simpa [listArgsStructName, hname] using args (list.append (toList_pluralPascal axis)
          (spoken_pluralReading axis.speakable.spoken))
      · simpa [listArgsStructName, hname] using args name
  | lookup =>
      by_cases hname : isByName q.name = true
      · simpa [lookupArgsStructName, hname] using args (axis.append name.text name.speakable.spoken)
      · simpa [lookupArgsStructName, hname] using args name
  | sql => simpa using args name

theorem unexported_query (h : Named f) (hq : q ∈ f.queries) :
    Unexported (queryVarName f q) (queryVarReading f q) := by
  have name := unexported_lowerCamel (h.queries q hq)
  have later := exported_pascalCase (h.queries q hq)
  have list : Unexported "list" [word "list"] := ⟨rfl, speakable_word rfl, List.cons_ne_nil _ _⟩
  have axis := exported_axis h q
  unfold queryVarName queryVarReading queryReading
  cases hk : q.kind with
  | list =>
      by_cases hname : q.name = "list"
      · simpa [listVarName, hname] using list.append (toList_pluralPascal axis)
          (spoken_pluralReading axis.speakable.spoken)
      · simpa [listVarName, hname] using name
  | lookup =>
      by_cases hname : isByName q.name = true
      · simpa [lookupVarName, hname] using (unexported_lowerCamel (isName_resourceAxis h q)).append
          later.text later.speakable.spoken
      · simpa [lookupVarName, hname] using name
  | sql => simpa using name

end Identifiers

end Lazuli.Codegen
