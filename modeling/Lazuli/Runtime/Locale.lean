import Lazuli.General.Text
import Mathlib

/-!
Locale negotiation (`runtime/go/lazuli/i18n/negotiate.go`, `contract.go`).

The ranges of the header are tried in its order, whatever their quality values are. When none of
them has an answer, the fallbacks are followed from the first range on to the first supported tag;
a walk that comes back to a tag, or to a tag without a fallback, ends with the default.
-/

namespace Lazuli.Runtime.Locale

open General

abbrev Text := List Char

structure Fallback where
  source : Text
  target : Text

structure LocaleContract where
  default : Text
  supported : List Text
  fallbacks : List Fallback

namespace LocaleContract

variable (c : LocaleContract)

def IsSupported (tag : Text) : Prop := tag ∈ c.supported

instance (tag : Text) : Decidable (c.IsSupported tag) := inferInstanceAs (Decidable (_ ∈ _))

/-- Where the first fallback of a tag leads. -/
def next (tag : Text) : Option Text :=
  (c.fallbacks.find? fun fb => fb.source = tag).map Fallback.target

/-- The fallbacks of the tags that have not been seen. -/
def unseen (seen : List Text) : List Fallback := c.fallbacks.filter fun fb => !seen.contains fb.source

theorem unseen_lt {seen : List Text} {tag : Text} (hseen : tag ∉ seen)
    (hnext : c.next tag ≠ none) : (c.unseen (tag :: seen)).length < (c.unseen seen).length := by
  have fewer : c.unseen (tag :: seen) = (c.unseen seen).filter fun fb => fb.source ≠ tag := by
    rw [unseen, unseen, List.filter_filter]
    refine List.filter_congr fun fb _ => ?_
    simp
  obtain ⟨target, htarget⟩ := Option.ne_none_iff_exists'.mp hnext
  obtain ⟨fb, hfound, -⟩ := Option.map_eq_some_iff.mp htarget
  have hsource : fb.source = tag := by simpa using List.find?_some hfound
  rw [fewer, List.length_filter_lt_length_iff_exists]
  refine ⟨fb, List.mem_filter.mpr ⟨List.mem_of_find?_eq_some hfound, ?_⟩, by simp [hsource]⟩
  simpa [hsource] using hseen

/-- The loop of `Resolve`, with the tags it has seen. -/
def walk (seen : List Text) (tag : Text) : Text :=
  if _hseen : seen.contains tag then c.default
  else
    match _h : c.next tag with
    | none => c.default
    | some target => if c.IsSupported target then target else walk (tag :: seen) target
termination_by (c.unseen seen).length
decreasing_by exact c.unseen_lt (by simpa using _hseen) (by rw [_h]; exact Option.some_ne_none _)

def resolve (tag : Text) : Text := if c.IsSupported tag then tag else c.walk [] tag

/-- One of the tags extends the other by a subtag. -/
def Related (s tag : Text) : Prop := tag ++ ['-'] <+: s ∨ s ++ ['-'] <+: tag

instance (s tag : Text) : Decidable (Related s tag) := inferInstanceAs (Decidable (_ ∨ _))

/-- What the loop over the header returns for a range. -/
def answer (tag : Text) : Option Text :=
  if c.IsSupported tag then some tag else c.supported.find? fun s => Related s tag

end LocaleContract

/-- A part of the header without its parameters. -/
def rangeOf (part : Text) : Text := Text.trim (part.takeWhile (· ≠ ';'))

/-- The ranges that the header asks for, in its order. -/
def requested (header : Text) : List Text :=
  ((header.splitOn ',').map rangeOf).filter (· ≠ [])

def firstRange (header : Text) : Text := rangeOf ((header.splitOn ',').headD [])

def negotiateAcceptLanguage (c : LocaleContract) (header : Text) : Text :=
  if header = [] then c.default
  else
    match (requested header).findSome? c.answer with
    | some tag => tag
    | none =>
        if firstRange header ≠ [] then c.resolve (firstRange header) else c.default

/-! ### The walk along the fallbacks -/

namespace LocaleContract

/-- In so many steps, the fallbacks of a tag lead to a first supported one. -/
inductive LeadsTo (c : LocaleContract) : Nat → Text → Text → Prop
  | last {tag target} : c.next tag = some target → c.IsSupported target → LeadsTo c 0 tag target
  | step {n tag middle target} : c.next tag = some middle → ¬ c.IsSupported middle →
      LeadsTo c n middle target → LeadsTo c (n + 1) tag target

section Walk

variable {c : LocaleContract} {n m : Nat} {tag target target' : Text} {seen : List Text}

theorem LeadsTo.unique (h : c.LeadsTo n tag target) (h' : c.LeadsTo m tag target') :
    n = m ∧ target = target' := by
  induction h generalizing m with
  | last hnext hsupported =>
      cases h' with
      | last hnext' => exact ⟨rfl, Option.some_inj.mp (hnext.symm.trans hnext')⟩
      | step hnext' hnot =>
          obtain rfl := Option.some_inj.mp (hnext.symm.trans hnext')
          exact absurd hsupported hnot
  | step hnext hnot _ ih =>
      cases h' with
      | last hnext' hsupported =>
          obtain rfl := Option.some_inj.mp (hnext.symm.trans hnext')
          exact absurd hsupported hnot
      | step hnext' _ hrest =>
          obtain rfl := Option.some_inj.mp (hnext.symm.trans hnext')
          obtain ⟨rfl, rfl⟩ := ih hrest
          exact ⟨rfl, rfl⟩

theorem LeadsTo.supported (h : c.LeadsTo n tag target) : c.IsSupported target := by
  induction h with
  | last _ hsupported => exact hsupported
  | step _ _ _ ih => exact ih

/-- The tags seen on the way are farther from the end, so the walk comes to none of them again. -/
theorem walk_of_leadsTo (h : c.LeadsTo n tag target)
    (hseen : ∀ s ∈ seen, ∃ m, n < m ∧ c.LeadsTo m s target) : c.walk seen tag = target := by
  induction h generalizing seen with
  | @last tag target hnext hsupported =>
      have fresh : tag ∉ seen := fun hmem => by
        obtain ⟨m, hlt, hlong⟩ := hseen tag hmem
        have := (LeadsTo.last hnext hsupported).unique hlong
        omega
      rw [walk, dif_neg (by simpa using fresh)]
      split
      · next none => rw [hnext] at none; cases none
      · next other hother =>
          obtain rfl := Option.some_inj.mp (hnext.symm.trans hother)
          exact if_pos hsupported
  | @step n tag middle target hnext hnot hrest ih =>
      have here : c.LeadsTo (n + 1) tag target := .step hnext hnot hrest
      have fresh : tag ∉ seen := fun hmem => by
        obtain ⟨m, hlt, hlong⟩ := hseen tag hmem
        have := here.unique hlong
        omega
      rw [walk, dif_neg (by simpa using fresh)]
      split
      · next none => rw [hnext] at none; cases none
      · next other hother =>
          obtain rfl := Option.some_inj.mp (hnext.symm.trans hother)
          rw [if_neg hnot]
          refine ih fun s hs => ?_
          rcases List.mem_cons.mp hs with rfl | hs
          · exact ⟨n + 1, Nat.lt_succ_self n, here⟩
          · obtain ⟨m, hlt, hlong⟩ := hseen s hs
            exact ⟨m, by omega, hlong⟩

/-- A walk that finds no supported tag ends with the default. -/
theorem walk_of_not_leadsTo (h : ∀ n target, ¬ c.LeadsTo n tag target) :
    c.walk seen tag = c.default := by
  fun_induction walk c seen tag with
  | case1 => rfl
  | case2 => rfl
  | case3 seen tag _ target hnext hsupported => exact absurd (.last hnext hsupported) (h _ _)
  | case4 seen tag _ target hnext hnot ih =>
      exact ih fun n end_ hrest => h _ _ (.step hnext hnot hrest)

end Walk

/-- A range is answered by itself, or else by the first supported tag related to it. -/
def Answers (c : LocaleContract) (range tag : Text) : Prop :=
  c.IsSupported range ∧ tag = range ∨
    ¬ c.IsSupported range ∧ ∃ before behind, c.supported = before ++ tag :: behind ∧
      Related tag range ∧ ∀ s ∈ before, ¬ Related s range

theorem answer_eq_some_iff {c : LocaleContract} {range tag : Text} :
    c.answer range = some tag ↔ c.Answers range tag := by
  rw [answer, Answers]
  split
  · next h => simp [h, eq_comm]
  · next h =>
      simp only [List.find?_eq_some_iff_append, decide_eq_true_eq, Bool.not_eq_true',
        decide_eq_false_iff_not, h, false_and, false_or, not_false_eq_true, true_and]
      constructor
      · rintro ⟨hrelated, before, behind, hsplit, hbefore⟩
        exact ⟨before, behind, hsplit, hrelated, hbefore⟩
      · rintro ⟨before, behind, hsplit, hrelated, hbefore⟩
        exact ⟨hrelated, before, behind, hsplit, hbefore⟩

end LocaleContract

/-! ### The negotiation -/

section Negotiate

open LocaleContract

variable {c : LocaleContract} {header : Text}

theorem supported_of_answers {range tag : Text} (h : c.Answers range tag) : c.IsSupported tag := by
  rcases h with ⟨hrange, rfl⟩ | ⟨-, before, behind, hsplit, -⟩
  · exact hrange
  · rw [IsSupported, hsplit]
    simp

theorem walk_supported (h : c.IsSupported c.default) (tag : Text) :
    c.IsSupported (c.walk [] tag) := by
  by_cases hleads : ∃ n target, c.LeadsTo n tag target
  · obtain ⟨n, target, hleads⟩ := hleads
    rw [walk_of_leadsTo hleads (by simp)]
    exact hleads.supported
  · rw [walk_of_not_leadsTo fun n target hn => hleads ⟨n, target, hn⟩]
    exact h

/-- The first range that is answered decides. -/
theorem negotiate_of_answers {before behind : List Text} {range tag : Text}
    (hsplit : requested header = before ++ range :: behind)
    (hbefore : ∀ r ∈ before, ∀ t, ¬ c.Answers r t) (hrange : c.Answers range tag) :
    negotiateAcceptLanguage c header = tag := by
  have some : header ≠ [] := by
    rintro rfl
    have none : requested [] = [] := rfl
    rw [none] at hsplit
    exact List.append_ne_nil_of_right_ne_nil _ (List.cons_ne_nil _ _) hsplit.symm
  have silent : before.findSome? c.answer = none :=
    List.findSome?_eq_none_iff.mpr fun r hr => Option.eq_none_iff_forall_ne_some.mpr fun t ht =>
      hbefore r hr t (answer_eq_some_iff.mp ht)
  rw [negotiateAcceptLanguage, if_neg some, hsplit, List.findSome?_append, silent, Option.none_or,
    List.findSome?_cons, answer_eq_some_iff.mpr hrange]

/-- Without an answer, the fallbacks are followed from the first range on. -/
theorem negotiate_of_not_answers (h : ∀ r ∈ requested header, ∀ t, ¬ c.Answers r t) :
    negotiateAcceptLanguage c header =
      if firstRange header ≠ [] then c.walk [] (firstRange header) else c.default := by
  have silent : (requested header).findSome? c.answer = none :=
    List.findSome?_eq_none_iff.mpr fun r hr => Option.eq_none_iff_forall_ne_some.mpr fun t ht =>
      h r hr t (answer_eq_some_iff.mp ht)
  rw [negotiateAcceptLanguage, silent]
  by_cases empty : header = []
  · subst empty
    rfl
  · rw [if_neg empty]
    by_cases none : firstRange header = []
    · simp only [none, ne_eq, not_true_eq_false, if_false]
    · have asked : firstRange header ∈ requested header := by
        refine List.mem_filter.mpr ⟨List.mem_map_of_mem ?_, decide_eq_true none⟩
        cases hparts : header.splitOn ',' with
        | nil => exact absurd hparts (List.splitOn_ne_nil _ _)
        | cons part parts => exact List.mem_cons_self
      have unsupported : ¬ c.IsSupported (firstRange header) := fun hmem =>
        h _ asked _ (.inl ⟨hmem, rfl⟩)
      rw [if_pos none, if_pos none, resolve, if_neg unsupported]

end Negotiate

open LocaleContract in
/-- With a supported default, the tag that is negotiated is supported: it answers the first range
of the header that has an answer. If none has, it is what the first range resolves to. -/
theorem negotiate_sound (c : LocaleContract) (header : Text) (h : c.IsSupported c.default) :
    c.IsSupported (negotiateAcceptLanguage c header) ∧
    (∀ before range behind tag, requested header = before ++ range :: behind →
      (∀ r ∈ before, ∀ t, ¬ c.Answers r t) → c.Answers range tag →
      negotiateAcceptLanguage c header = tag) ∧
    ((∀ r ∈ requested header, ∀ t, ¬ c.Answers r t) →
      (∀ n tag, firstRange header ≠ [] → c.LeadsTo n (firstRange header) tag →
        negotiateAcceptLanguage c header = tag) ∧
      ((firstRange header = [] ∨ ∀ n tag, ¬ c.LeadsTo n (firstRange header) tag) →
        negotiateAcceptLanguage c header = c.default)) := by
  refine ⟨?_, fun before range behind tag => negotiate_of_answers, fun hnone =>
    ⟨fun n tag hne hleads => ?_, fun hstuck => ?_⟩⟩
  · cases hfound : (requested header).findSome? c.answer with
    | some tag =>
        obtain ⟨before, range, behind, hsplit, hrange, hbefore⟩ :=
          List.findSome?_eq_some_iff.mp hfound
        have answers := answer_eq_some_iff.mp hrange
        rw [negotiate_of_answers hsplit _ answers]
        · exact supported_of_answers answers
        · intro r hr t ht
          have none := hbefore r hr
          rw [answer_eq_some_iff.mpr ht] at none
          cases none
    | none =>
        have silent : ∀ r ∈ requested header, ∀ t, ¬ c.Answers r t := fun r hr t ht => by
          have none := List.findSome?_eq_none_iff.mp hfound r hr
          rw [answer_eq_some_iff.mpr ht] at none
          cases none
        rw [negotiate_of_not_answers silent]
        split
        · exact walk_supported h _
        · exact h
  · rw [negotiate_of_not_answers hnone, if_pos hne, walk_of_leadsTo hleads (by simp)]
  · rw [negotiate_of_not_answers hnone]
    split
    · next hne => exact walk_of_not_leadsTo (hstuck.resolve_left hne)
    · rfl

/-- English is supported, and Portuguese is the default. -/
def portuguese : LocaleContract where
  default := "pt".toList
  supported := ["en".toList, "pt".toList]
  fallbacks := []

theorem negotiate_sound_portuguese :
    portuguese.IsSupported (negotiateAcceptLanguage portuguese "fr, en-GB;q=0.5".toList) :=
  (negotiate_sound portuguese "fr, en-GB;q=0.5".toList (by decide)).1

/-- The header has the range with this parameter, or with none. -/
def Lists (header range parameter : Text) : Prop :=
  ∃ part ∈ header.splitOn ',', rangeOf part = range ∧
    Text.trim ((part.dropWhile (· ≠ ';')).drop 1) = parameter

instance (header range parameter : Text) : Decidable (Lists header range parameter) :=
  inferInstanceAs (Decidable (∃ part ∈ _, _))

/-- Quality values do not count: English is excluded, and Portuguese is asked for. -/
theorem excluded_tag_negotiated : ¬ ∀ (c : LocaleContract) (header : Text),
    c.IsSupported c.default → ∀ other, c.IsSupported other → Lists header other [] →
      ¬ Lists header (negotiateAcceptLanguage c header) "q=0".toList := by
  intro h
  exact h portuguese "en;q=0, pt".toList (by decide) "pt".toList (by decide) (by decide)
    (by decide)

end Lazuli.Runtime.Locale
