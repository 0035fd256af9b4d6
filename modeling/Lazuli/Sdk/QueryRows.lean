import Lazuli.Codegen.QueryResources
import Lazuli.General.Fresh
import Mathlib

/-!
The casing of the TypeScript names (`casing.rs` in `lazuli_cli`).

It is not the casing of the Go names: words are cut where a character is neither a letter nor a
digit and nowhere else, and there are fewer acronyms.
-/

namespace Lazuli.Sdk

def isAcronym (word : List Char) : Bool :=
  String.ofList (word.map Char.toLower) ∈ ["id", "url", "uri", "html", "json", "sql", "ttl"]

/-- The stretches of letters and digits. -/
def wordsOf (s : List Char) : List (List Char) :=
  (s.splitOnP fun c => !c.isAlphanum).filter (· ≠ [])

def pascalWord : List Char → List Char
  | [] => []
  | first :: rest =>
      if isAcronym (first :: rest) then (first :: rest).map Char.toUpper else first.toUpper :: rest

/-- What stands in front of a name that begins with a digit. -/
def digitPrefix : List (List Char) → List Char
  | (first :: _) :: _ => if first.isDigit then "App".toList else []
  | _ => []

def pascalChars (s : List Char) : List Char :=
  digitPrefix (wordsOf s) ++ (wordsOf s).flatMap pascalWord

def pascalCase (s : String) : String := String.ofList (pascalChars s.toList)

/-- What is written for the characters that are left, behind `out`. -/
def snakeFrom (out : List Char) (prevLower : Bool) : List Char → List Char
  | [] => out
  | ch :: rest =>
      if ch = '-' ∨ ch = ' ' then snakeFrom (out ++ ['_']) false rest
      else if ch.isUpper then
        let out := if prevLower && !out.isEmpty then out ++ ['_'] else out
        snakeFrom (out ++ [ch.toLower]) false rest
      else snakeFrom (out ++ [ch]) (ch.isLower || ch.isDigit) rest

def toSnakeCase (s : String) : List Char := snakeFrom [] false s.toList

example : pascalCase "service_transaction" = "ServiceTransaction" := by decide +kernel

example : String.ofList (toSnakeCase "ServiceTransaction") = "service_transaction" := by
  decide +kernel

end Lazuli.Sdk

/-!
The rows of a query in the SDK (`generate/ts/types/output.rs`, `sdk.rs`).

The client types the rows of a query by a resource that it finds itself: the longest name that
the name of the query mentions, or the first resource of all. The server finds its resource by the
words of the name.
-/

namespace Lazuli.Sdk

open Ir Codegen General

/-! ### The resource of the rows -/

def isVowel (c : Char) : Bool := c ∈ ['a', 'e', 'i', 'o', 'u']

def pluralizeSnake (word : List Char) : List Char :=
  if word.isEmpty then []
  else
    match word.reverse with
    | 'y' :: prev :: _ => if isVowel prev then word ++ ['s'] else word.dropLast ++ "ies".toList
    | 's' :: _ | 'x' :: _ | 'z' :: _ | 'h' :: 'c' :: _ | 'h' :: 's' :: _ => word ++ "es".toList
    | _ => word ++ ['s']

/-- How many bytes a word takes. -/
def byteLen (word : List Char) : Nat := (String.ofList word).utf8ByteSize

def lastToken (snake : List Char) : List Char := (snake.splitOn '_').getLast?.getD []

/-- The name of the query has the resource in it, or its last word, as it is or in the plural. -/
def mentions (queryName : String) (resource : Resource) : Bool :=
  let queryLc := queryName.toList.map Char.toLower
  let snake := toSnakeCase resource.name
  let last := lastToken snake
  snake <:+: queryLc ||
    !(pluralizeSnake snake).isEmpty && pluralizeSnake snake <:+: queryLc ||
    !last.isEmpty && byteLen last > 3 && last <:+: queryLc ||
    !(pluralizeSnake last).isEmpty && byteLen (pluralizeSnake last) > 4 &&
      pluralizeSnake last <:+: queryLc

/-- The longest names first. -/
def candidates (f : FeatureDecl) : List Resource :=
  f.resources.insertionSort fun a b => b.name.utf8ByteSize ≤ a.name.utf8ByteSize

def pickQueryResourceTs (f : FeatureDecl) (queryName : String) : Option String :=
  ((candidates f).find? (mentions queryName)).map fun r => pascalCase r.name

def queryResourceTy (f : FeatureDecl) (queryName : String) : String :=
  (pickQueryResourceTs f queryName).getD
    ((f.resources.head?.map fun r => pascalCase r.name).getD "unknown")

/-- What a query returns; that of an SQL query is declared. -/
def queryReturns (f : FeatureDecl) (q : Query) : Option String :=
  match q.kind with
  | .lookup => some (queryResourceTy f q.name)
  | .list => some (queryResourceTy f q.name ++ "[]")
  | .sql => none

/-! ### One resource on both sides -/

/-- The resource whose type the rows have. -/
def rowResource (f : FeatureDecl) (queryName : String) : Option Resource :=
  ((candidates f).find? (mentions queryName)).or f.resources.head?

/-- The client types the rows by the resource that the server reads. -/
structure SameRows (f : FeatureDecl) (q : Query) : Prop where
  resource : (rowResource f q.name).map (·.name) = (resourceForQuery f q.name).map (·.name)
  type : queryResourceTy f q.name =
    ((resourceForQuery f q.name).map fun r => pascalCase r.name).getD "unknown"

/-- The client's choice: the longest of the names that are mentioned, of equally long ones the first;
or the first resource when none is. -/
def Picked (f : FeatureDecl) (queryName : String) (r : Resource) : Prop :=
  Leads (fun s : Resource => s.name.utf8ByteSize) (mentions queryName) f.resources r ∨
    (∀ s ∈ f.resources, mentions queryName s = false) ∧ f.resources.head? = some r

section

variable {f : FeatureDecl} {q : Query} {r : Resource} {queryName : String}

theorem queryResourceTy_eq (f : FeatureDecl) (queryName : String) :
    queryResourceTy f queryName =
      ((rowResource f queryName).map fun r => pascalCase r.name).getD "unknown" := by
  rw [queryResourceTy, pickQueryResourceTs, rowResource]
  cases (candidates f).find? (mentions queryName) with
  | none => rfl
  | some r => rfl

theorem find?_candidates_eq_none :
    (candidates f).find? (mentions queryName) = none ↔
      ∀ s ∈ f.resources, mentions queryName s = false := by
  have hperm : (candidates f).Perm f.resources := List.perm_insertionSort _ _
  rw [List.find?_eq_none]
  simp only [Bool.not_eq_true, hperm.mem_iff]

theorem rowResource_eq_some : rowResource f queryName = some r ↔ Picked f queryName r := by
  rw [rowResource, Option.or_eq_some_iff, candidates, find?_insertionSort]
  exact or_congr_right (and_congr_left fun _ => find?_candidates_eq_none)

theorem Picked.mem (h : Picked f queryName r) : r ∈ f.resources := by
  rcases h with h | ⟨-, h⟩
  · exact h.mem
  · exact List.mem_of_head? h

/-- As soon as there are resources one of them is picked. -/
theorem exists_picked (queryName : String) (h : f.resources ≠ []) : ∃ r, rowResource f queryName = some r := by
  obtain ⟨first, rest, hfirst⟩ := List.exists_cons_of_ne_nil h
  rw [rowResource, hfirst]
  cases (candidates f).find? (mentions queryName) with
  | none => exact ⟨first, rfl⟩
  | some r => exact ⟨r, rfl⟩

theorem sameRows_of_resource
    (h : (rowResource f q.name).map (·.name) = (resourceForQuery f q.name).map (·.name)) :
    SameRows f q := by
  refine ⟨h, ?_⟩
  have := congrArg (fun name => (name.map pascalCase).getD "unknown") h
  rw [queryResourceTy_eq]
  simpa only [Option.map_map, Function.comp_def] using this

/-- **The client types the rows of a query by the resource that the server reads exactly when there
are no resources, or the one that the client picks beats every other one in the words of the
query.** -/
theorem sameRows_iff (f : FeatureDecl) (q : Query) : SameRows f q ↔ f.resources = [] ∨
    ∃ r, Picked f q.name r ∧ ∀ s ∈ f.resources, s.name ≠ r.name →
      Beats (splitIdentTokens q.name) r.name s.name := by
  by_cases hempty : f.resources = []
  · refine iff_of_true (sameRows_of_resource ?_) (.inl hempty)
    simp [rowResource, candidates, resourceForQuery, hempty]
  · obtain ⟨r, hr⟩ := exists_picked q.name hempty
    have hpicked := rowResource_eq_some.mp hr
    have hchosen : SameRows f q ↔ ∀ s ∈ f.resources, s.name ≠ r.name →
        Beats (splitIdentTokens q.name) r.name s.name := by
      rw [← resourceForQuery_name_iff hpicked.mem]
      constructor
      · intro h
        rw [← h.resource, hr]
        rfl
      · intro h
        exact sameRows_of_resource (by rw [h, hr]; rfl)
    rw [hchosen, or_iff_right hempty]
    constructor
    · exact fun h => ⟨r, hpicked, h⟩
    · rintro ⟨s, hs, h⟩
      obtain rfl := Option.some_inj.mp (hr.symm.trans (rowResource_eq_some.mpr hs))
      exact h

end

/-- Hosts, declared before accounts. -/
def hosting : FeatureDecl where
  name := "hosting"
  resources := [host, account]

/-- `recent` mentions neither: the client has the rows of the first resource, the server those of
the smaller name. -/
theorem recent_rows_differ :
    queryReturns hosting ⟨.list, "recent"⟩ = some "Host[]" ∧
      (emitQueryValue hosting ⟨.list, "recent"⟩).rowType = "Account" ∧
      ¬ SameRows hosting ⟨.list, "recent"⟩ := by
  have hclient : queryReturns hosting ⟨.list, "recent"⟩ = some "Host[]" := by decide +kernel
  have hserver : (emitQueryValue hosting ⟨.list, "recent"⟩).rowType = "Account" := by decide +kernel
  refine ⟨hclient, hserver, fun h => ?_⟩
  exact absurd h.resource (by decide +kernel)

end Lazuli.Sdk
