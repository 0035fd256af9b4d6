import Mathlib
import Lazuli.Analyzer.RestrictScopes
import Lazuli.Codegen.Naming

/-!
Which resource a query reads (`emitter/query/util.rs`, `header.rs`, `list.rs`, `lookup.rs`).

The value of a query is typed by a resource and reads its table. It is found by the words of the
name of the query: ten points for each word of a resource that is among them, fifty more for the
last. So a query of a convention reads its own resource exactly if no other one of the feature
does as well with the words of that name.
-/

namespace Lazuli.Codegen

open Analyzer Ir Lazuli.Runtime

/-! ### The value of a query -/

/-- What the value of a query says of its resource. -/
structure QueryValue where
  name : String
  rowType : String
  resource : String
  deriving DecidableEq

def emitQueryValue (f : FeatureDecl) (q : Query) : QueryValue :=
  let resource := resourceForQuery f q.name
  { name := f.name ++ "." ++ q.name
    rowType := (resource.map fun r => pascalCase r.name).getD "struct\x7b\x7d"
    resource := (resource.map fun r => "&" ++ resourceVarName r).getD "nil" }

/-- The query is typed by the resource and reads its table. -/
def ReadsResource (f : FeatureDecl) (q : Query) (r : Resource) : Prop :=
  (resourceForQuery f q.name).map (·.name) = some r.name ∧
    emitQueryValue f q =
      ⟨f.name ++ "." ++ q.name, pascalCase r.name, "&" ++ resourceVarName r⟩

/-! ### Points -/

/-- The word is among those of a query, as it is or in the plural. -/
def namedIn (words : List (List Char)) (word : List Char) : Bool :=
  words.any fun w => w = word || w = plural word

/-- What the words of a name are worth in a query. -/
def points (words : List (List Char)) (name : String) : Nat :=
  10 * (splitIdentTokens name).countP (namedIn words) +
    if (splitIdentTokens name).getLast?.any (namedIn words) then 50 else 0

/-- The first name does better in the query: it has more points, or as many and is the smaller. -/
def Beats (words : List (List Char)) (name other : String) : Prop :=
  points words other < points words name ∨ points words other = points words name ∧ name < other

instance (words : List (List Char)) (name other : String) : Decidable (Beats words name other) :=
  inferInstanceAs (Decidable (_ ∨ _))

section Points

variable {f : FeatureDecl} {r : Resource} {q : Query} {words : List (List Char)}
  {a b c : String}

theorem Beats.irrefl : ¬ Beats words a a := by
  rintro (h | ⟨-, h⟩)
  · exact lt_irrefl _ h
  · exact lt_irrefl _ h

theorem Beats.trans (h : Beats words a b) (h' : Beats words b c) : Beats words a c := by
  rcases h with h | ⟨h, hname⟩
  · rcases h' with h' | ⟨h', -⟩
    · exact .inl (h'.trans h)
    · exact .inl (h' ▸ h)
  · rcases h' with h' | ⟨h', hname'⟩
    · exact .inl (h ▸ h')
    · exact .inr ⟨h'.trans h, hname.trans hname'⟩

/-- Of two names one does better. -/
theorem beats_of_not_beats (hne : a ≠ b) (h : ¬ Beats words a b) : Beats words b a := by
  obtain ⟨hpoints, hname⟩ := not_or.mp h
  rcases (not_lt.mp hpoints).lt_or_eq with hlt | heq
  · exact .inl hlt
  · have hle : ¬ a < b := fun hlt => hname ⟨heq.symm, hlt⟩
    exact .inr ⟨heq, lt_of_le_of_ne (not_lt.mp hle) (Ne.symm hne)⟩

/-- The step of the fold keeps a resource that no other one beats. -/
theorem foldl_best (queryName : String) (first : Resource) (rest : List Resource) :
    ∃ best ∈ first :: rest,
      rest.foldl (fun best r =>
        if resourceScore queryName r < resourceScore queryName best ∨
            resourceScore queryName r = resourceScore queryName best ∧ best.name < r.name then best
        else r) first = best ∧
      ∀ r ∈ first :: rest, ¬ Beats (splitIdentTokens queryName) r.name best.name := by
  induction rest generalizing first with
  | nil =>
      refine ⟨first, List.mem_cons_self, rfl, fun r hr => ?_⟩
      rw [List.mem_singleton.mp hr]
      exact Beats.irrefl
  | cons r rest ih =>
      rw [List.foldl_cons]
      split
      next hkeep =>
        obtain ⟨best, hmem, hbest, hnone⟩ := ih first
        refine ⟨best, ?_, hbest, ?_⟩
        · rcases List.mem_cons.mp hmem with rfl | hmem
          · exact List.mem_cons_self
          · exact List.mem_cons_of_mem _ (List.mem_cons_of_mem _ hmem)
        · have hfirst := hnone first List.mem_cons_self
          intro s hs
          rcases List.mem_cons.mp hs with rfl | hs
          · exact hfirst
          · rcases List.mem_cons.mp hs with rfl | hs
            · exact fun hbeats => hfirst (Beats.trans hkeep hbeats)
            · exact hnone s (List.mem_cons_of_mem _ hs)
      next hdrop =>
        obtain ⟨best, hmem, hbest, hnone⟩ := ih r
        refine ⟨best, List.mem_cons_of_mem _ hmem, hbest, fun s hs => ?_⟩
        rcases List.mem_cons.mp hs with rfl | hs
        · have hr := hnone r List.mem_cons_self
          intro hbeats
          by_cases hname : s.name = r.name
          · exact hr (hname ▸ hbeats)
          · exact hr ((beats_of_not_beats hname hdrop).trans hbeats)
        · exact hnone s hs

/-- The resource of a query is one that no other one beats. -/
theorem resourceForQuery_best (queryName : String) (hne : f.resources ≠ []) :
    ∃ best ∈ f.resources, resourceForQuery f queryName = some best ∧
      ∀ r ∈ f.resources, ¬ Beats (splitIdentTokens queryName) r.name best.name := by
  have hmem (r : Resource) :
      r ∈ f.resources.insertionSort (fun a b => a.name ≤ b.name) ↔ r ∈ f.resources :=
    (List.perm_insertionSort _ f.resources).mem_iff
  unfold resourceForQuery
  cases hsort : f.resources.insertionSort fun a b => a.name ≤ b.name with
  | nil =>
      obtain ⟨r, hr⟩ := List.exists_mem_of_ne_nil _ hne
      rw [← hmem r, hsort] at hr
      cases hr
  | cons first rest =>
      rw [hsort] at hmem
      obtain ⟨best, hbest, hfold, hnone⟩ := foldl_best queryName first rest
      exact ⟨best, (hmem best).mp hbest, by rw [← hfold], fun r hr => hnone r ((hmem r).mpr hr)⟩

/-- The resource of a query is the one that beats every other one of the feature. -/
theorem resourceForQuery_name_iff {queryName : String} (hr : r ∈ f.resources) :
    (resourceForQuery f queryName).map (·.name) = some r.name ↔
      ∀ s ∈ f.resources, s.name ≠ r.name →
        Beats (splitIdentTokens queryName) r.name s.name := by
  obtain ⟨best, hmem, hbest, hnone⟩ := resourceForQuery_best queryName (List.ne_nil_of_mem hr)
  rw [hbest, Option.map_some, Option.some.injEq]
  constructor
  · intro hname s hs hne
    have hs := hname ▸ hnone s hs
    exact beats_of_not_beats hne hs
  · intro hbeats
    by_contra hne
    exact hnone r hr (hbeats best hmem hne)

theorem reads_iff (hr : r ∈ f.resources) :
    ReadsResource f q r ↔ ∀ s ∈ f.resources, s.name ≠ r.name →
      Beats (splitIdentTokens q.name) r.name s.name := by
  rw [← resourceForQuery_name_iff hr]
  refine and_iff_left_of_imp fun hname => ?_
  obtain ⟨best, hbest, hname⟩ := Option.map_eq_some_iff.mp hname
  simp [emitQueryValue, resourceVarName, hbest, hname]

end Points

/-! ### The queries of conventions -/

section Conventions

variable {f : FeatureDecl} {r : Resource}

/-- The characters of a word that is not cut. -/
def uncut (c : Char) : Bool := !c.isUpper && c != '_' && c != '-' && c != ' '

theorem uncut_iff {c : Char} :
    uncut c = true ↔ c.isUpper = false ∧ ¬ (c = '_' ∨ c = '-' ∨ c = ' ') := by
  simp [uncut, and_assoc]

/-- A word is read up to the underscore behind it. -/
theorem splitIdentTokensFrom_word {word : List Char} (hword : word.all uncut = true)
    (afterLower : Bool) (current rest : List Char) :
    splitIdentTokensFrom afterLower current (word ++ '_' :: rest) =
      flush (current ++ word) ++ splitIdentTokensFrom false [] rest := by
  induction word generalizing afterLower current with
  | nil => rw [List.nil_append, splitIdentTokensFrom, if_pos (.inl rfl), List.append_nil]
  | cons c word ih =>
      rw [List.all_cons, Bool.and_eq_true] at hword
      obtain ⟨hupper, hsep⟩ := uncut_iff.mp hword.1
      rw [List.cons_append, splitIdentTokensFrom, if_neg hsep, hupper]
      simp only [Bool.false_and, Bool.false_eq_true, if_false]
      rw [ih hword.2, List.append_assoc, List.singleton_append]

/-- The verb of a query is its first word. -/
theorem splitIdentTokens_verb (verb : String) {joined : String} (hne : verb.toList ≠ [])
    (hverb : verb.toList.all uncut = true) (hjoined : joined.toList = verb.toList ++ ['_'])
    (rest : String) :
    splitIdentTokens (joined ++ rest) =
      verb.toList.map Char.toLower :: splitIdentTokens rest := by
  rw [splitIdentTokens, String.toList_append, hjoined, List.append_assoc, List.singleton_append,
    splitIdentTokensFrom_word hverb, List.nil_append, flush, if_neg (by simpa using hne),
    List.map_append]
  rfl

theorem words_lookupName (r : Resource) :
    splitIdentTokens (lookupName r) =
      "lookup".toList :: splitIdentTokens (Analyzer.pascalToSnake r.name) :=
  splitIdentTokens_verb "lookup" (by decide) rfl rfl _

theorem words_lookupMyName (r : Resource) :
    splitIdentTokens (lookupMyName r) =
      "lookup".toList :: "my".toList :: splitIdentTokens (Analyzer.pascalToSnake r.name) := by
  have hname : lookupMyName r = "lookup_" ++ ("my_" ++ Analyzer.pascalToSnake r.name) := by
    rw [← String.append_assoc]
    rfl
  have hmy : splitIdentTokens ("my_" ++ Analyzer.pascalToSnake r.name) =
      "my".toList :: splitIdentTokens (Analyzer.pascalToSnake r.name) :=
    splitIdentTokens_verb "my" (by decide) rfl rfl _
  rw [hname]
  refine (splitIdentTokens_verb "lookup" (by decide) rfl rfl _).trans ?_
  exact congrArg ("lookup".toList :: ·) hmy

/-- The plural is an `s` behind the name, whatever its last word. -/
theorem words_listName (r : Resource) :
    splitIdentTokens (listName r) =
      "list".toList :: splitIdentTokens (Analyzer.pascalToSnake r.name ++ "s") := by
  rw [listName, String.append_assoc]
  exact splitIdentTokens_verb "list" (by decide) rfl rfl _

/-- The words in the names of the queries of a resource. -/
def conventionWords (r : Resource) : List (List (List Char)) :=
  let words := splitIdentTokens (Analyzer.pascalToSnake r.name)
  (if .crud ∈ r.conventions then
      ["lookup".toList :: words,
        "list".toList :: splitIdentTokens (Analyzer.pascalToSnake r.name ++ "s")]
    else []) ++
    if .me ∈ r.conventions ∧ (classifyMeMode r).isSome then
      ["lookup".toList :: "my".toList :: words]
    else []

theorem words_conventionQueries (r : Resource) :
    (conventionQueries r).map (fun q => splitIdentTokens q.name) = conventionWords r := by
  rw [conventionQueries, conventionWords, List.map_append]
  congr 1
  · split
    · simp only [List.map_cons, List.map_nil, words_lookupName, words_listName]
    · rfl
  · split
    · simp only [List.map_cons, List.map_nil, words_lookupMyName]
    · rfl

/-- The queries of its conventions read a resource exactly if it does better in their words than
every other resource of the feature. -/
theorem conventionQueries_read_iff (f : FeatureDecl) (r : Resource) (hr : r ∈ f.resources) :
    (∀ q ∈ conventionQueries r, ReadsResource (synthesizeConventions f) q r) ↔
      ∀ words ∈ conventionWords r, ∀ s ∈ f.resources, s.name ≠ r.name →
        Beats words r.name s.name := by
  have hr' : r ∈ (synthesizeConventions f).resources := hr
  rw [← words_conventionQueries, List.forall_mem_map]
  exact forall₂_congr fun q _ => reads_iff hr'

/-! ### Categories and hosts -/

def host : Resource where
  name := "Host"
  conventions := [.crud]

def category : Resource where
  name := "Category"
  conventions := [.crud]

def account : Resource where
  name := "Account"

def listings : FeatureDecl where
  name := "listings"
  resources := [account, category, host]

/-- The queries of `Host` read it. -/
theorem conventionQueries_read_iff_host :
    host ∈ listings.resources ∧
      ∀ q ∈ conventionQueries host, ReadsResource (synthesizeConventions listings) q host := by
  have hhost : host ∈ listings.resources := by simp [listings]
  exact ⟨hhost, (conventionQueries_read_iff listings host hhost).mpr (by decide +kernel)⟩

/-- `list_categorys` has no word of any of the resources, and reads the first of them. -/
theorem list_categorys_reads_account :
    ¬ ∀ (f : FeatureDecl) (r : Resource), r ∈ f.resources →
      ∀ q ∈ conventionQueries r, ReadsResource (synthesizeConventions f) q r := by
  intro claimed
  have hname : listName category = "list_categorys" := by decide +kernel
  have hlist : (⟨.list, "list_categorys"⟩ : Query) ∈ conventionQueries category := by
    rw [← hname]
    exact List.mem_append_left _ (List.mem_cons_of_mem _ (List.mem_singleton_self _))
  have hreads := claimed listings category (by simp [listings]) _ hlist
  have hfeature : category ∈ (synthesizeConventions listings).resources := by
    simp [synthesizeConventions, listings]
  have hbeats := (reads_iff hfeature).mp hreads account (by simp [synthesizeConventions, listings])
    (by decide)
  revert hbeats
  decide +kernel

end Conventions

end Lazuli.Codegen
