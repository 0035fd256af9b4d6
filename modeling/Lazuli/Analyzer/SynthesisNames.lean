import Lazuli.Analyzer.Synthesis

/-!
What the passes of a feature keep, and when they keep its names apart.

Every pass leaves what was there in front and adds behind it; only the resources of lifecycles
are given fields. The names that are formed around a field or a resource stay apart when the
fields and the resources do (`names_distinct`), and then a name is recorded with the bundle that
has added it (`recorded_query`).
-/

namespace Lazuli.Analyzer.Synthesis

open General Ir

/-! ### What is added behind -/

section AddUnwritten

variable {α : Type} {name : α → String} {existing added : List α} {a : α}

theorem prefix_addUnwritten : existing <+: addUnwritten name existing added :=
  List.prefix_append _ _

theorem mem_addUnwritten : a ∈ addUnwritten name existing added ↔
    a ∈ existing ∨ a ∈ added ∧ name a ∉ existing.map name := by
  simp [addUnwritten]

theorem nodup_addUnwritten (before : (existing.map name).Nodup) (formed : (added.map name).Nodup) :
    ((addUnwritten name existing added).map name).Nodup := by
  rw [addUnwritten, List.map_append]
  refine before.append (formed.sublist (List.filter_sublist.map _)) ?_
  intro n old new
  obtain ⟨a, mem, rfl⟩ := List.mem_map.mp new
  exact of_decide_eq_true (List.mem_filter.mp mem).2 old

end AddUnwritten

/-! ### Lifecycles -/

/-- The resource with its fields in front, and perhaps others and a lifecycle. -/
structure Kept (r r' : Resource) : Prop where
  fields : r.fields <+: r'.fields
  same : r' = { r with fields := r'.fields, lifecycle := r'.lifecycle }

section Kept

variable {r r' r'' : Resource} {rs rs' back : List Resource} {name : String}
  {block : LifecycleBlock}

theorem Kept.refl (r : Resource) : Kept r r := ⟨List.prefix_rfl, rfl⟩

theorem Kept.trans (h : Kept r r') (h' : Kept r' r'') : Kept r r'' where
  fields := h.fields.trans h'.fields
  same := by
    rw [h'.same, h.same]

theorem Kept.name_eq (h : Kept r r') : r'.name = r.name := by
  rw [h.same]

theorem Kept.conventions_eq (h : Kept r r') : r'.conventions = r.conventions := by
  rw [h.same]

theorem kept_names (h : List.Forall₂ Kept rs rs') :
    rs'.map Resource.name = rs.map Resource.name := by
  induction h with
  | nil => rfl
  | cons kept _ ih => rw [List.map_cons, List.map_cons, kept.name_eq, ih]

theorem kept_trans (h : List.Forall₂ Kept rs rs') (h' : List.Forall₂ Kept rs' back) :
    List.Forall₂ Kept rs back := by
  induction h generalizing back with
  | nil => exact h'
  | cons kept _ ih =>
      cases h' with
      | cons kept' rest => exact .cons (kept.trans kept') (ih rest)

theorem prefix_foldl_emitField (fields new : List Field) :
    fields <+: new.foldl emitField fields := by
  induction new generalizing fields with
  | nil => exact List.prefix_rfl
  | cons field new ih =>
      refine List.IsPrefix.trans ?_ (ih (emitField fields field))
      unfold emitField
      split
      · exact List.prefix_rfl
      · exact List.prefix_append _ _

theorem kept_withLifecycle (block : LifecycleBlock) (r : Resource) :
    Kept r (withLifecycle block r) :=
  ⟨prefix_foldl_emitField _ _, rfl⟩

theorem attach_kept (h : attach name block rs = some rs') : List.Forall₂ Kept rs rs' := by
  induction rs generalizing rs' with
  | nil => cases h
  | cons r rest ih =>
      rw [attach] at h
      split at h
      · split at h
        · cases h
        · obtain rfl := Option.some.inj h
          exact .cons (kept_withLifecycle block r) (List.forall₂_same.mpr fun r _ => Kept.refl r)
      · obtain ⟨rest', attached, rfl⟩ := Option.map_eq_some_iff.mp h
        exact .cons (.refl r) (ih attached)

/-- The first resource of a name that is in front is in front. -/
theorem attach_append (known : name ∈ rs.map Resource.name) (back : List Resource) :
    attach name block (rs ++ back) = (attach name block rs).map (· ++ back) := by
  induction rs with
  | nil => cases known
  | cons r rest ih =>
      rw [List.cons_append, attach, attach]
      by_cases same : r.name = name
      · rw [if_pos same, if_pos same]
        split <;> rfl
      · have later := (List.mem_cons.mp known).resolve_left (Ne.symm same)
        rw [if_neg same, if_neg same, ih later]
        cases attach name block rest <;> rfl

end Kept

def transitionNames (decls : List ResourceDecl) : List String :=
  decls.flatMap fun decl => decl.lifecycle.toList.flatMap fun block =>
    block.transitions.map (·.name)

theorem transitionNames_cons (decl : ResourceDecl) (decls : List ResourceDecl) :
    transitionNames (decl :: decls) = transitionNames [decl] ++ transitionNames decls := by
  simp [transitionNames]

theorem names_emitLifecycleCommands (resource : String) (block : LifecycleBlock) :
    (emitLifecycleCommands resource block).map Command.name =
      block.transitions.map (·.name) := by
  simp [emitLifecycleCommands]

/-- One block changes the resources in front and pushes its commands, or does nothing. -/
theorem lowerBlock_spec {decl : ResourceDecl} {f : Feature} {front back : List Resource}
    (split : f.resources = front ++ back)
    (known : decl.lowered.name ∈ front.map Resource.name) :
    ∃ front' added, List.Forall₂ Kept front front' ∧
      lowerBlock f decl = { f with resources := front' ++ back, commands := f.commands ++ added } ∧
      List.Sublist (added.map Command.name) (transitionNames [decl]) ∧
      ∀ c ∈ added, c.body.bundle = none := by
  have nothing : f = { f with resources := front ++ back, commands := f.commands ++ [] } := by
    rw [← split, List.append_nil]
  have same : List.Forall₂ Kept front front := List.forall₂_same.mpr fun r _ => Kept.refl r
  unfold lowerBlock
  cases has : decl.lifecycle with
  | none => exact ⟨front, [], same, nothing, List.nil_sublist _, List.forall_mem_nil _⟩
  | some block =>
      dsimp only
      rw [split, attach_append known]
      cases attached : attach decl.lowered.name block front with
      | none => exact ⟨front, [], same, nothing, List.nil_sublist _, List.forall_mem_nil _⟩
      | some front' =>
          refine ⟨front', _, attach_kept attached, rfl, ?_, ?_⟩
          · simp [transitionNames, has, names_emitLifecycleCommands]
          · intro c mem
            obtain ⟨t, -, rfl⟩ := List.mem_map.mp mem
            rfl

/-- Lifecycles change the resources in front and push commands of transitions. -/
theorem lowerLifecycles_spec (decls : List ResourceDecl) (f : Feature)
    (front back : List Resource) (split : f.resources = front ++ back)
    (known : ∀ decl ∈ decls, decl.lowered.name ∈ front.map Resource.name) :
    ∃ front' added, List.Forall₂ Kept front front' ∧
      lowerLifecycles f decls =
        { f with resources := front' ++ back, commands := f.commands ++ added } ∧
      List.Sublist (added.map Command.name) (transitionNames decls) ∧
      ∀ c ∈ added, c.body.bundle = none := by
  induction decls generalizing f front with
  | nil =>
      refine ⟨front, [], List.forall₂_same.mpr fun r _ => Kept.refl r, ?_, .slnil,
        List.forall_mem_nil _⟩
      rw [lowerLifecycles, List.foldl_nil, ← split, List.append_nil]
  | cons decl decls ih =>
      obtain ⟨first, early, kept, one, names, none⟩ :=
        lowerBlock_spec split (known decl List.mem_cons_self)
      obtain ⟨last, late, kept', rest, names', none'⟩ := ih (lowerBlock f decl) first
        (by rw [one]) fun decl' mem => by
          rw [kept_names kept]
          exact known decl' (List.mem_cons_of_mem _ mem)
      refine ⟨last, early ++ late, kept_trans kept kept', ?_, ?_, ?_⟩
      · rw [lowerLifecycles, List.foldl_cons]
        refine rest.trans ?_
        rw [one, List.append_assoc]
      · rw [List.map_append, transitionNames_cons]
        exact names.append names'
      · exact fun c mem => (List.mem_append.mp mem).elim (none c) (none' c)

def junctionsOf (s : Skeleton) : List Resource :=
  s.authored.flatMap fun r => r.manyThrough.map (synthesizeJunctionResource r.name)

theorem lifecyclesLowered_spec (s : Skeleton) :
    ∃ front added, List.Forall₂ Kept s.authored front ∧
      lifecyclesLowered s =
        { lowerFeatureSkeleton s with
          resources := front ++ junctionsOf s
          commands := (lowerFeatureSkeleton s).commands ++ added } ∧
      List.Sublist (added.map Command.name) (transitionNames s.resources) ∧
      ∀ c ∈ added, c.body.bundle = none :=
  lowerLifecycles_spec s.resources (lowerFeatureSkeleton s) s.authored (junctionsOf s) rfl
    fun _ mem => List.mem_map_of_mem (List.mem_map_of_mem mem)

/-! ### Names around a word -/

def crudCommandAffixes : List Affix :=
  [{ lead := "create_" }, { lead := "update_" }, { lead := "delete_" }]

def lookupAffix : Affix := { lead := "lookup_" }

def listAffix : Affix := { lead := "list_", tail := "s" }

def lookupMyAffix : Affix := { lead := "lookup_my_" }

def photoAffixes : List Affix :=
  [.request, .confirm, .clear, .getUrl].map AutoPhotoCommandRole.affix

/-- The words of the resources that ask for a bundle. -/
def bundleWords (bundle : ConventionRef) (rs : List Resource) : List String :=
  (rs.filter (bundle ∈ ·.conventions)).map fun r => pascalToSnake r.name

section Words

variable {rs rs' : List Resource} {bundle : ConventionRef}

theorem bundleWords_cons (r : Resource) : bundleWords bundle (r :: rs) =
    (if bundle ∈ r.conventions then [pascalToSnake r.name] else []) ++ bundleWords bundle rs := by
  unfold bundleWords
  by_cases asks : bundle ∈ r.conventions <;> simp [asks]

theorem bundleWords_append :
    bundleWords bundle (rs ++ rs') = bundleWords bundle rs ++ bundleWords bundle rs' := by
  simp [bundleWords]

theorem bundleWords_kept (h : List.Forall₂ Kept rs rs') :
    bundleWords bundle rs' = bundleWords bundle rs := by
  induction h with
  | nil => rfl
  | cons kept _ ih => rw [bundleWords_cons, bundleWords_cons, kept.name_eq, kept.conventions_eq, ih]

theorem bundleWords_junctionsOf (s : Skeleton) : bundleWords bundle (junctionsOf s) = [] := by
  rw [bundleWords, List.filter_eq_nil_iff.mpr, List.map_nil]
  intro j mem
  obtain ⟨r, -, mem⟩ := List.mem_flatMap.mp mem
  obtain ⟨mt, -, rfl⟩ := List.mem_map.mp mem
  simp [synthesizeJunctionResource]

theorem names_crudCommands (rs : List Resource) :
    (rs.flatMap crudCommands).map Command.name =
      (bundleWords .crud rs).flatMap fun x => crudCommandAffixes.map fun a => a.name x := by
  induction rs with
  | nil => rfl
  | cons r rs ih =>
      rw [List.flatMap_cons, List.map_append, ih, bundleWords_cons, List.flatMap_append]
      by_cases asks : .crud ∈ r.conventions <;>
        simp [crudCommands, asks, crudCommandAffixes, Affix.name, createName, updateName,
          deleteName]

theorem names_crudQueries (rs : List Resource) :
    (rs.flatMap crudQueries).map Query.name =
      (bundleWords .crud rs).flatMap fun x => [lookupAffix, listAffix].map fun a => a.name x := by
  induction rs with
  | nil => rfl
  | cons r rs ih =>
      rw [List.flatMap_cons, List.map_append, ih, bundleWords_cons, List.flatMap_append]
      by_cases asks : .crud ∈ r.conventions <;>
        simp [crudQueries, asks, lookupAffix, listAffix, Affix.name, lookupName, listName]

theorem names_meQueries (rs : List Resource) :
    List.Sublist ((rs.flatMap meQueries).map Query.name)
      ((bundleWords .me rs).map lookupMyAffix.name) := by
  induction rs with
  | nil => exact .slnil
  | cons r rs ih =>
      rw [List.flatMap_cons, List.map_append, bundleWords_cons, List.map_append]
      refine List.Sublist.append ?_ ih
      by_cases asks : .me ∈ r.conventions
      · cases mode : classifyMeMode r <;>
          simp [meQueries, asks, mode, lookupMyAffix, Affix.name, lookupMyName]
      · simp [meQueries, asks]

theorem names_photoCommands (sites : List PhotoSite) :
    (sites.flatMap photoCommands).map Command.name =
      (sites.map (·.field)).flatMap fun x => photoAffixes.map fun a => a.name x := by
  rw [List.map_flatMap, List.flatMap_map]
  rfl

theorem names_photoRecords (sites : List PhotoSite) :
    (sites.flatMap photoRecords).map Record.name =
      (sites.map fun site => snakeToPascal site.field).flatMap fun x =>
        [uploadIntent, displayUrl].map fun a => a.name x := by
  rw [List.map_flatMap, List.flatMap_map]
  rfl

end Words

/-! ### Members of the bundles -/

theorem mem_crudCommands {r : Resource} {c : Command} (mem : c ∈ crudCommands r) :
    (∃ a ∈ crudCommandAffixes, c.name = a.name (pascalToSnake r.name)) ∧
      c.body.bundle = some .crud := by
  unfold crudCommands at mem
  split at mem
  · simp only [List.mem_cons, List.not_mem_nil, or_false] at mem
    rcases mem with rfl | rfl | rfl <;>
      simp [crudCommandAffixes, Affix.name, createName, updateName, deleteName,
        CommandBody.bundle]
  · cases mem

theorem mem_crudQueries {r : Resource} {q : Query} (mem : q ∈ crudQueries r) :
    .crud ∈ r.conventions ∧
      (∃ a ∈ [lookupAffix, listAffix], q.name = a.name (pascalToSnake r.name)) ∧
      q.body.bundle = some .crud := by
  unfold crudQueries at mem
  split at mem
  · rename_i asks
    simp only [List.mem_cons, List.not_mem_nil, or_false] at mem
    rcases mem with rfl | rfl <;>
      simp [asks, lookupAffix, listAffix, Affix.name, lookupName, listName, QueryBody.bundle]
  · cases mem

theorem mem_meQueries {r : Resource} {q : Query} (mem : q ∈ meQueries r) :
    .me ∈ r.conventions ∧ q.name = lookupMyAffix.name (pascalToSnake r.name) ∧
      q.body.bundle = some .me := by
  unfold meQueries at mem
  split at mem
  · rename_i asks
    split at mem
    · obtain rfl := List.mem_singleton.mp mem
      simp [asks, lookupMyAffix, Affix.name, lookupMyName, QueryBody.bundle]
    · cases mem
  · cases mem

/-! ### Names kept apart -/

/-- What was declared keeps the names apart that are formed of it: the transitions, the photos,
the resources of a bundle and the junctions. -/
structure Apart (s : Skeleton) : Prop where
  transitions : (transitionNames s.resources).Nodup
  untaken : ∀ name ∈ transitionNames s.resources, name ∉ s.commands.map (·.name)
  photos : ((photoSites s (lifecyclesLowered s).resources).map fun site =>
    snakeToPascal site.field).Nodup
  crud : (bundleWords .crud s.authored).Nodup
  me : (bundleWords .me s.authored).Nodup
  lookups : ∀ x ∈ bundleWords .crud s.authored, ∀ y ∈ bundleWords .me s.authored, x ≠ "my_" ++ y
  junctions : ((junctionsOf s).map Resource.name).Nodup
  unclaimed : ∀ j ∈ junctionsOf s, j.name ∉ s.authored.map Resource.name
  ends : ∀ r ∈ s.authored, ∀ mt ∈ r.manyThrough, pascalToSnake r.name ≠ pascalToSnake mt.partner
  payloads : ∀ r ∈ s.authored, ∀ mt ∈ r.manyThrough, (mt.payload.map Field.name).Nodup ∧
    ∀ field ∈ mt.payload, field.name ≠ pascalToSnake r.name ++ "_id" ∧
      field.name ≠ pascalToSnake mt.partner ++ "_id"

/-- No name is declared twice, nor a column of a junction. -/
structure Distinct (s : Skeleton) (f : Feature) : Prop where
  commands : (f.commands.map Command.name).Nodup
  queries : (f.queries.map Query.name).Nodup
  records : (f.records.map Record.name).Nodup
  resources : (f.resources.map Resource.name).Nodup
  columns : ∀ j ∈ junctionsOf s, (j.fields.map Field.name).Nodup

section Names

variable {s : Skeleton}

/-- The resources of the last passes ask for the same under the same names. -/
theorem bundleWords_lowered (bundle : ConventionRef) :
    bundleWords bundle (photosAdded s).resources = bundleWords bundle s.authored := by
  obtain ⟨front, added, kept, lowered, -⟩ := lifecyclesLowered_spec s
  have resources : (photosAdded s).resources = front ++ junctionsOf s := by
    rw [photosAdded, synthesizeAutoPhoto, lowered]
  rw [resources, bundleWords_append, bundleWords_junctionsOf, List.append_nil,
    bundleWords_kept kept]

theorem lookupMyAffix_name (y : String) : lookupMyAffix.name y = lookupAffix.name ("my_" ++ y) := by
  apply String.toList_inj.mp
  simp [lookupMyAffix, lookupAffix, Affix.toList_name]

/-- What `crud` forms is not formed by `me`. -/
theorem crud_ne_me (apart : Apart s) {r r' : Resource} (hr : r ∈ (photosAdded s).resources)
    (hr' : r' ∈ (photosAdded s).resources) {q q' : Query} (mem : q ∈ crudQueries r)
    (mem' : q' ∈ meQueries r') : q.name ≠ q'.name := by
  obtain ⟨asks, ⟨a, ha, named⟩, -⟩ := mem_crudQueries mem
  obtain ⟨asks', named', -⟩ := mem_meQueries mem'
  have word : pascalToSnake r.name ∈ bundleWords .crud s.authored := by
    rw [← bundleWords_lowered]
    exact List.mem_map_of_mem (List.mem_filter.mpr ⟨hr, decide_eq_true asks⟩)
  have word' : pascalToSnake r'.name ∈ bundleWords .me s.authored := by
    rw [← bundleWords_lowered]
    exact List.mem_map_of_mem (List.mem_filter.mpr ⟨hr', decide_eq_true asks'⟩)
  rw [named, named']
  simp only [List.mem_cons, List.not_mem_nil, or_false] at ha
  rcases ha with rfl | rfl
  · rw [lookupMyAffix_name, Ne, Affix.name_inj]
    exact apart.lookups _ word _ word'
  · exact (by decide : listAffix.Apart lookupMyAffix).name_ne _ _

theorem nodup_commands (apart : Apart s) (authored : (s.commands.map (·.name)).Nodup) :
    ((synthesize s).commands.map Command.name).Nodup := by
  obtain ⟨front, added, -, lowered, names, -⟩ := lifecyclesLowered_spec s
  refine nodup_addUnwritten (nodup_addUnwritten ?_ ?_) ?_
  · have commands : (lifecyclesLowered s).commands.map Command.name =
        s.commands.map (·.name) ++ added.map Command.name := by
      rw [lowered]
      simp [lowerFeatureSkeleton]
    rw [commands]
    refine authored.append (apart.transitions.sublist names) ?_
    intro name old new
    exact apart.untaken name (names.subset new) old
  · rw [names_photoCommands]
    refine Affix.nodup_names (by decide) ?_
    refine List.Nodup.of_map snakeToPascal ?_
    rw [List.map_map]
    exact apart.photos
  · rw [names_crudCommands, bundleWords_lowered]
    exact Affix.nodup_names (by decide) apart.crud

theorem nodup_queries (apart : Apart s) (authored : (s.queries.map (·.name)).Nodup) :
    ((synthesize s).queries.map Query.name).Nodup := by
  obtain ⟨front, added, -, lowered, -⟩ := lifecyclesLowered_spec s
  refine nodup_addUnwritten ?_ ?_
  · have queries : (photosAdded s).queries.map Query.name = s.queries.map (·.name) := by
      rw [photosAdded, synthesizeAutoPhoto, lowered]
      simp [lowerFeatureSkeleton]
    rwa [queries]
  · set rs := (photosAdded s).resources with hrs
    have order : (rs.flatMap bundleQueries).Perm (rs.flatMap crudQueries ++ rs.flatMap meQueries) :=
      (List.flatMap_append_perm rs crudQueries meQueries).symm
    rw [(order.map Query.name).nodup_iff, List.map_append]
    refine List.Nodup.append ?_ (List.Nodup.sublist (names_meQueries rs) ?_) ?_
    · rw [names_crudQueries, hrs, bundleWords_lowered]
      exact Affix.nodup_names (by decide) apart.crud
    · rw [hrs, bundleWords_lowered]
      exact apart.me.map fun x y => Affix.name_inj.mp
    · intro name first second
      obtain ⟨q, hq, rfl⟩ := List.mem_map.mp first
      obtain ⟨q', hq', same⟩ := List.mem_map.mp second
      obtain ⟨r, hr, mem⟩ := List.mem_flatMap.mp hq
      obtain ⟨r', hr', mem'⟩ := List.mem_flatMap.mp hq'
      exact crud_ne_me apart hr hr' mem mem' same.symm

theorem nodup_records (apart : Apart s) (authored : (s.records.map (·.name)).Nodup) :
    ((synthesize s).records.map Record.name).Nodup := by
  obtain ⟨front, added, -, lowered, -⟩ := lifecyclesLowered_spec s
  refine nodup_addUnwritten ?_ ?_
  · have records : (lifecyclesLowered s).records.map Record.name = s.records.map (·.name) := by
      rw [lowered]
      simp [lowerFeatureSkeleton]
    rwa [records]
  · rw [names_photoRecords]
    exact Affix.nodup_names (by decide) apart.photos

theorem resources_synthesize (s : Skeleton) :
    ∃ front, List.Forall₂ Kept s.authored front ∧
      (synthesize s).resources = front ++ junctionsOf s := by
  obtain ⟨front, added, kept, lowered, -⟩ := lifecyclesLowered_spec s
  refine ⟨front, kept, ?_⟩
  rw [synthesize, synthesizeConventions, photosAdded, synthesizeAutoPhoto, lowered]

theorem nodup_resources (apart : Apart s) (authored : (s.authored.map Resource.name).Nodup) :
    ((synthesize s).resources.map Resource.name).Nodup := by
  obtain ⟨front, kept, resources⟩ := resources_synthesize s
  rw [resources, List.map_append, kept_names kept]
  refine authored.append apart.junctions ?_
  intro name old new
  obtain ⟨j, mem, rfl⟩ := List.mem_map.mp new
  exact apart.unclaimed j mem old

theorem nodup_columns (apart : Apart s) {j : Resource} (mem : j ∈ junctionsOf s) :
    (j.fields.map Field.name).Nodup := by
  obtain ⟨r, hr, mem⟩ := List.mem_flatMap.mp mem
  obtain ⟨mt, hmt, rfl⟩ := List.mem_map.mp mem
  obtain ⟨distinct, others⟩ := apart.payloads r hr mt hmt
  have ends : pascalToSnake r.name ++ "_id" ≠ pascalToSnake mt.partner ++ "_id" := fun same =>
    apart.ends r hr mt hmt ((String.append_left_inj "_id").mp same)
  simp only [synthesizeJunctionResource, List.map_cons, List.cons_append, List.nil_append,
    List.nodup_cons, List.mem_cons, List.mem_map, not_or, not_exists, not_and]
  exact ⟨⟨ends, fun field mem => (others field mem).1⟩, fun field mem => (others field mem).2,
    distinct⟩

/-! ### What is recorded -/

/-- A name that is recorded has the origin of one of its entries. -/
theorem originOf_of_recorded {f : Feature} {name : String}
    (recorded : name ∈ f.synthOrigins.map Prod.fst) :
    ∃ origin, (name, origin) ∈ f.synthOrigins ∧ f.originOf name = some origin := by
  obtain ⟨e, mem, rfl⟩ := List.mem_map.mp recorded
  cases found : lastWhere (fun e' => e'.1 = e.1) f.synthOrigins with
  | none =>
      have none := List.find?_eq_none.mp found _ (List.mem_reverse.mpr mem)
      simp at none
  | some e' =>
      obtain ⟨mem', same⟩ := lastWhere_some found
      have same : e'.1 = e.1 := of_decide_eq_true same
      refine ⟨e'.2, same ▸ mem', ?_⟩
      rw [Feature.originOf, found]
      rfl

theorem mark_fresh {existing : List String} {bundle : ConventionRef} {n name : String}
    {origin : ConventionOrigin} (fresh : name ∉ existing)
    (h : mark existing bundle n = (name, origin)) :
    n = name ∧ origin = .synthesized bundle := by
  obtain ⟨rfl, rfl⟩ := Prod.mk.inj h
  exact ⟨rfl, if_neg fresh⟩

/-- Nothing has been added by a bundle before the last pass. -/
theorem bundle_photosAdded :
    (∀ c ∈ (photosAdded s).commands, c.body.bundle = none) ∧
      (∀ q ∈ (photosAdded s).queries, q.body.bundle = none) ∧
      (photosAdded s).synthOrigins = [] := by
  obtain ⟨front, added, -, lowered, -, none⟩ := lifecyclesLowered_spec s
  rw [photosAdded, synthesizeAutoPhoto, lowered]
  refine ⟨fun c mem => ?_, fun q mem => ?_, rfl⟩
  · rcases mem_addUnwritten.mp mem with mem | ⟨mem, -⟩
    · rcases List.mem_append.mp mem with mem | mem
      · obtain ⟨decl, -, rfl⟩ := List.mem_map.mp mem
        rfl
      · exact none c mem
    · obtain ⟨site, -, mem⟩ := List.mem_flatMap.mp mem
      obtain ⟨role, -, rfl⟩ := List.mem_map.mp mem
      rfl
  · obtain ⟨decl, -, rfl⟩ := List.mem_map.mp mem
    rfl

theorem mem_synthOrigins {e : String × ConventionOrigin} : e ∈ (synthesize s).synthOrigins ↔
    ∃ r ∈ (photosAdded s).resources,
      (∃ c ∈ crudCommands r,
        mark ((photosAdded s).commands.map Command.name) .crud c.name = e) ∨
      (∃ q ∈ crudQueries r, mark ((photosAdded s).queries.map Query.name) .crud q.name = e) ∨
      ∃ q ∈ meQueries r, mark ((photosAdded s).queries.map Query.name) .me q.name = e := by
  rw [synthesize, synthesizeConventions, bundle_photosAdded.2.2]
  simp [originsOf]

/-- No query is named like a command of a bundle. -/
theorem command_ne_query {r : Resource} {c : Command} (mem : c ∈ crudCommands r) {a : Affix}
    (ha : a ∈ [lookupAffix, listAffix, lookupMyAffix]) (x : String) : c.name ≠ a.name x := by
  obtain ⟨⟨b, hb, named⟩, -⟩ := mem_crudCommands mem
  have apart : ∀ b ∈ crudCommandAffixes, ∀ a ∈ [lookupAffix, listAffix, lookupMyAffix],
      b.Apart a := by decide
  rw [named]
  exact (apart b hb a ha).name_ne _ x

theorem recorded_command {c : Command} {bundle : ConventionRef}
    (mem : c ∈ (synthesize s).commands) (added : c.body.bundle = some bundle) :
    (synthesize s).originOf c.name = some (.synthesized bundle) := by
  obtain ⟨authored, -, -⟩ := bundle_photosAdded (s := s)
  rcases mem_addUnwritten.mp mem with mem | ⟨mem, fresh⟩
  · cases (authored c mem).symm.trans added
  obtain ⟨r, hr, mem⟩ := List.mem_flatMap.mp mem
  obtain ⟨-, crud⟩ := mem_crudCommands mem
  obtain rfl := Option.some.inj (crud.symm.trans added)
  have entry := mem_synthOrigins.mpr ⟨r, hr, .inl ⟨c, mem, rfl⟩⟩
  obtain ⟨origin, recorded, found⟩ := originOf_of_recorded (List.mem_map_of_mem entry)
  rw [mark] at recorded found
  rw [found]
  obtain ⟨r', -, ⟨c', -, same⟩ | ⟨q, hq, same⟩ | ⟨q, hq, same⟩⟩ := mem_synthOrigins.mp recorded
  · rw [(mark_fresh fresh same).2]
  · obtain ⟨-, ⟨a, ha, named⟩, -⟩ := mem_crudQueries hq
    exact absurd ((congrArg Prod.fst same).symm.trans named)
      (command_ne_query mem (List.mem_append_left [lookupMyAffix] ha) _)
  · obtain ⟨-, named, -⟩ := mem_meQueries hq
    exact absurd ((congrArg Prod.fst same).symm.trans named)
      (command_ne_query mem (by simp) _)

theorem recorded_query {q : Query} {bundle : ConventionRef}
    (mem : q ∈ (synthesize s).queries) (added : q.body.bundle = some bundle) :
    ∃ origin, (synthesize s).originOf q.name = some (.synthesized origin) ∧
      (Apart s → origin = bundle) := by
  obtain ⟨-, authored, -⟩ := bundle_photosAdded (s := s)
  rcases mem_addUnwritten.mp mem with mem | ⟨mem, fresh⟩
  · cases (authored q mem).symm.trans added
  obtain ⟨r, hr, mem⟩ := List.mem_flatMap.mp mem
  have entry : q.name ∈ (synthesize s).synthOrigins.map Prod.fst := by
    rcases List.mem_append.mp mem with mem | mem
    · exact List.mem_map_of_mem (mem_synthOrigins.mpr ⟨r, hr, .inr (.inl ⟨q, mem, rfl⟩)⟩)
    · exact List.mem_map_of_mem (mem_synthOrigins.mpr ⟨r, hr, .inr (.inr ⟨q, mem, rfl⟩)⟩)
  obtain ⟨origin, recorded, found⟩ := originOf_of_recorded entry
  rw [found]
  obtain ⟨r', hr', ⟨c, hc, same⟩ | ⟨q', hq', same⟩ | ⟨q', hq', same⟩⟩ :=
    mem_synthOrigins.mp recorded
  · have named : c.name = q.name := congrArg Prod.fst same
    rcases List.mem_append.mp mem with mem | mem
    · obtain ⟨-, ⟨a, ha, named'⟩, -⟩ := mem_crudQueries mem
      exact absurd (named.trans named')
        (command_ne_query hc (List.mem_append_left [lookupMyAffix] ha) _)
    · obtain ⟨-, named', -⟩ := mem_meQueries mem
      exact absurd (named.trans named') (command_ne_query hc (by simp) _)
  · obtain ⟨named, rfl⟩ := mark_fresh fresh same
    refine ⟨.crud, rfl, fun apart => ?_⟩
    rcases List.mem_append.mp mem with mem | mem
    · exact Option.some.inj ((mem_crudQueries mem).2.2.symm.trans added)
    · exact absurd named (crud_ne_me apart hr' hr hq' mem)
  · obtain ⟨named, rfl⟩ := mark_fresh fresh same
    refine ⟨.me, rfl, fun apart => ?_⟩
    rcases List.mem_append.mp mem with mem | mem
    · exact absurd named.symm (crud_ne_me apart hr hr' mem hq')
    · exact Option.some.inj ((mem_meQueries mem).2.2.symm.trans added)

end Names

/-! ### The whole synthesis -/

/-- What the author has declared is there: commands, queries and records as they are, in front,
and every resource with its fields, the junctions behind them. -/
structure Preserved (s : Skeleton) (f : Feature) : Prop where
  commands : (s.commands.map fun c => (⟨c.name, .authored c⟩ : Command)) <+: f.commands
  queries : (s.queries.map fun q => (⟨q.name, .authored q⟩ : Query)) <+: f.queries
  records : (s.records.map fun r => (⟨r.name, .authored r⟩ : Record)) <+: f.records
  resources : ∃ front, List.Forall₂ Kept s.authored front ∧ f.resources = front ++ junctionsOf s

theorem preserved_synthesize (s : Skeleton) : Preserved s (synthesize s) := by
  obtain ⟨front, added, -, lowered, -⟩ := lifecyclesLowered_spec s
  have commands : (lowerFeatureSkeleton s).commands <+: (lifecyclesLowered s).commands := by
    rw [lowered]
    exact List.prefix_append _ _
  refine ⟨?_, ?_, ?_, resources_synthesize s⟩
  · exact commands.trans (prefix_addUnwritten.trans prefix_addUnwritten)
  · have queries : (lowerFeatureSkeleton s).queries <+: (photosAdded s).queries := by
      rw [photosAdded, synthesizeAutoPhoto, lowered]
    exact queries.trans prefix_addUnwritten
  · have records : (lowerFeatureSkeleton s).records <+: (lifecyclesLowered s).records := by
      rw [lowered]
    exact records.trans prefix_addUnwritten

/-- **What is declared stays, what a bundle adds is recorded**, and names that were distinct stay
so while what they are formed of keeps them apart. -/
theorem synthesis_keeps_names (s : Skeleton) (commands : (s.commands.map (·.name)).Nodup)
    (queries : (s.queries.map (·.name)).Nodup) (records : (s.records.map (·.name)).Nodup)
    (resources : (s.authored.map Resource.name).Nodup) :
    Preserved s (synthesize s) ∧
      (∀ c ∈ (synthesize s).commands, ∀ bundle, c.body.bundle = some bundle →
        (synthesize s).originOf c.name = some (.synthesized bundle)) ∧
      (∀ q ∈ (synthesize s).queries, ∀ bundle, q.body.bundle = some bundle →
        ∃ origin, (synthesize s).originOf q.name = some (.synthesized origin) ∧
          (Apart s → origin = bundle)) ∧
      (Apart s → Distinct s (synthesize s)) :=
  ⟨preserved_synthesize s, fun _ mem _ added => recorded_command mem added,
    fun _ mem _ added => recorded_query mem added, fun apart =>
      { commands := nodup_commands apart commands
        queries := nodup_queries apart queries
        records := nodup_records apart records
        resources := nodup_resources apart resources
        columns := fun _ mem => nodup_columns apart mem }⟩

def myHost : ResourceDecl where
  lowered := { name := "MyHost", conventions := [.crud] }

def host : ResourceDecl where
  lowered := {
    name := "Host"
    fields := [{ name := "user", typeRef := .userDefined ⟨none, "User"⟩, required := true }]
    conventions := [.me] }

/-- A lookup of `crud` and one of `me` under one name. -/
example : (synthesize { resources := [myHost, host] }).queries.map Query.name =
    ["lookup_my_host", "list_my_hosts", "lookup_my_host"] := by rfl

/-! ### Two resources of one bundle -/

def crudResource (name : String) : ResourceDecl where
  lowered := { name := name, conventions := [.crud] }

def bookings : Skeleton where
  resources := [crudResource "Host", crudResource "Guest"]

theorem synthesis_keeps_names_bookings :
    Preserved bookings (synthesize bookings) ∧
      (∀ c ∈ (synthesize bookings).commands, ∀ bundle, c.body.bundle = some bundle →
        (synthesize bookings).originOf c.name = some (.synthesized bundle)) ∧
      (∀ q ∈ (synthesize bookings).queries, ∀ bundle, q.body.bundle = some bundle →
        ∃ origin, (synthesize bookings).originOf q.name = some (.synthesized origin) ∧
          (Apart bookings → origin = bundle)) ∧
      (Apart bookings → Distinct bookings (synthesize bookings)) :=
  synthesis_keeps_names bookings (by decide) (by decide) (by decide) (by decide)

/-- Nothing that is recorded tells the two apart. -/
theorem resource_unrecorded :
    ¬ ∃ resourceOf : ConventionOrigin → String, ∀ s : Skeleton,
      (s.commands.map (·.name)).Nodup → (s.queries.map (·.name)).Nodup →
        (s.records.map (·.name)).Nodup → (s.authored.map Resource.name).Nodup →
        Preserved s (synthesize s) ∧ Distinct s (synthesize s) ∧
          ∀ c ∈ (synthesize s).commands, ∀ resource, c.body = .create resource →
            ∃ origin, (synthesize s).originOf c.name = some origin ∧
              origin.convention = .crud ∧ resourceOf origin = resource := by
  rintro ⟨resourceOf, promise⟩
  obtain ⟨-, -, recorded⟩ :=
    promise bookings (by decide) (by decide) (by decide) (by decide)
  have named (name : String) (mem : ⟨"create_" ++ pascalToSnake name, .create name⟩ ∈
      (synthesize bookings).commands) : resourceOf (.synthesized .crud) = name := by
    obtain ⟨origin, found, -, same⟩ := recorded _ mem name rfl
    cases found.symm.trans (recorded_command mem rfl)
    exact same
  have host := named "Host" (.head _)
  have guest := named "Guest" (.tail _ (.tail _ (.tail _ (.head _))))
  exact absurd (host.symm.trans guest) (by decide)

end Lazuli.Analyzer.Synthesis
