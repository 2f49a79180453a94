import Stencil.Proofs.Registry.Growing

/-!
# Circular references

A circle is reported where a key comes up that is held. References of the definition have then led
along templates of the table, whose keys are those that are held, to a template of the reported key
(`leads_of_throws`). This need not be a template that is under construction: the key is written
together from a group and a name, and another template can have it. But then the group of the
template that was asked for has a dot in it (`circularReference_genuine`), because every other group
that references lead to has none.
-/

namespace Stencil

open Definition Build

variable {env : Environment} {table : TemplateTable} {p : Progress}
  {s s' : Session} {group name : String} {pieces : List Piece} {way : List (String × String)}
  {last : String × String}

/-- The key of a template of a group and a name. -/
def keyOf (x : String × String) : String := templateKey x.1 x.2

/-! ## Ways along references -/

/-- The pieces of a definition in a group refer to a template, or to one in a table whose definition
leads on from there: in between are the templates on the way. -/
inductive TemplateTable.Leads (table : TemplateTable) (env : Environment) :
    String → List Piece → List (String × String) → String × String → Prop where
  | here {group reference : String} {pieces : List Piece}
    (written : .placeholder ⟨some templateSymbol, reference⟩ ∈ pieces) :
    Leads table env group pieces [] (referenceTarget group reference)
  | along {group reference group' name' : String} {pieces : List Piece} {e : TemplateEntry}
    {way : List (String × String)} {last : String × String}
    (written : .placeholder ⟨some templateSymbol, reference⟩ ∈ pieces)
    (target : referenceTarget group reference = (group', name'))
    (found : table.find? group' name' = some e)
    (rest : Leads table env group' (piecesOf env e.definition) way last) :
    Leads table env group pieces ((group', name') :: way) last

theorem TemplateTable.Leads.cons (h : table.Leads env group pieces way last) (piece : Piece) :
    table.Leads env group (piece :: pieces) way last := by
  cases h with
  | here written => exact .here (List.mem_cons_of_mem _ written)
  | along written target found rest =>
    exact .along (List.mem_cons_of_mem _ written) target found rest

/-- References stay in the group that they start from, or have left it for groups without a dot. -/
theorem TemplateTable.Leads.group_eq_or (h : table.Leads env group pieces way last) :
    ∀ x, x ∈ way ∨ x = last → x.1 = group ∨ '.' ∉ x.1.toList := by
  induction h with
  | here written =>
    rintro x (hx | rfl)
    · cases hx
    · exact referenceTarget_group ..
  | @along group reference group' name' pieces e way last written target found rest ih =>
    have hfirst : group' = group ∨ '.' ∉ group'.toList := by
      have := referenceTarget_group group reference
      rwa [target] at this
    rintro x (hx | rfl)
    · rcases List.mem_cons.1 hx with rfl | hx
      · exact hfirst
      · rcases ih x (.inl hx) with heq | hdot
        · rwa [heq]
        · exact .inr hdot
    · rcases ih x (.inr rfl) with heq | hdot
      · rwa [heq]
      · exact .inr hdot

/-! ## The chain of a circle -/

/-- The chain of a circle that is found while some keys are held: the held keys, those of the
templates on the way, and a key among these that comes up again. -/
structure Progress.Closes (p : Progress) (way : List (String × String)) (last : String × String)
    (chain : List String) : Prop where
  chain_eq : chain = p.keys ++ (way ++ [last]).map keyOf
  again : keyOf last ∈ p.keys ++ way.map keyOf

theorem Progress.Closes.cons {x : String × String} {chain : List String}
    (h : Progress.Closes ⟨p.keys ++ [keyOf x]⟩ way last chain) :
    p.Closes (x :: way) last chain := by
  obtain ⟨hchain, hagain⟩ := h
  refine ⟨?_, ?_⟩
  · rw [hchain]
    simp
  · simpa using hagain

/-- A circle as it is found while some keys are held, with a registry that is left: no key comes up
twice before the last one, and none of the templates is registered by then. -/
structure Progress.Finds (p : Progress) (r : Registry) (way : List (String × String))
    (last : String × String) (chain : List String) : Prop extends p.Closes way last chain where
  distinct : p.keys.Nodup → (p.keys ++ way.map keyOf).Nodup
  missing : ∀ x, x ∈ way ∨ x = last → r.template? x.1 x.2 = none

theorem Progress.Finds.cons {r : Registry} {x : String × String} {chain : List String}
    (h : Progress.Finds ⟨p.keys ++ [keyOf x]⟩ r way last chain) (hfree : p.isHeld (keyOf x) = false)
    (hmissing : r.template? x.1 x.2 = none) : p.Finds r (x :: way) last chain := by
  refine ⟨h.toCloses.cons, fun hdistinct => ?_, ?_⟩
  · have hnot : keyOf x ∉ p.keys := by simpa [Progress.isHeld] using hfree
    have hkeys : (p.keys ++ [keyOf x]).Nodup :=
      List.nodup_append.2 ⟨hdistinct, List.nodup_singleton _, by
      rintro k hk k' hk' rfl
      exact hnot (List.mem_singleton.1 hk' ▸ hk)⟩
    simpa using h.distinct hkeys
  · rintro y (hy | rfl)
    · rcases List.mem_cons.1 hy with rfl | hy
      · exact hmissing
      · exact h.missing y (.inl hy)
    · exact h.missing y (.inr rfl)

/-- While some keys are held, a circle is only reported where references lead back to a key. -/
def Circles (env : Environment) (table : TemplateTable) (p : Progress) (group : String)
    (pieces : List Piece) : Prop :=
  ∀ ⦃s chain s'⦄, Throws (buildSegments env table p group pieces) s (.circularReference chain) s' →
    ∃ way last, table.Leads env group pieces way last ∧ p.Finds s'.registry way last chain

theorem not_throws_circular_finish {kind : Option TemplateKind} {segments : List Segment}
    {chain : List String} :
    ¬ Throws (finishTemplate group name kind segments) s (.circularReference chain) s' := by
  intro h
  obtain ⟨hcreate, -⟩ | ⟨t, -, hinsert⟩ := throws_finishTemplate.1 h
  · obtain ⟨fault, herror⟩ := Template.create_eq_error hcreate
    cases herror
  · obtain ⟨-, herror, -⟩ := throws_insertTemplate.1 hinsert
    cases herror

theorem leads_of_construct {e : TemplateEntry} {chain : List String}
    (hcircles : Circles env table p group (piecesOf env e.definition))
    (h : Throws (construct env table p group name e) s (.circularReference chain) s') :
    ∃ way last, table.Leads env group (piecesOf env e.definition) way last ∧
      p.Finds s'.registry way last chain := by
  obtain hsegments | ⟨segments, t, -, hfinish⟩ := throws_construct.1 h
  · exact hcircles hsegments
  · exact absurd hfinish not_throws_circular_finish

/-- A template that is new when its construction starts is not registered where that fails. -/
theorem template?_of_throws_construct {e : TemplateEntry} {error : BuildError}
    (hheld : p.isHeld (templateKey group name) = true)
    (hnew : s.registry.template? group name = none)
    (h : Throws (construct env table p group name e) s error s') :
    s'.registry.template? group name = none := by
  rw [(grows_of_throws_construct (breaks ..) h).extends.held _ _ hheld]
  exact hnew

theorem circles (env : Environment) (table : TemplateTable) (p : Progress)
    (group : String) (pieces : List Piece) : Circles env table p group pieces := by
  induction p, group, pieces using pieces_induction env table with
  | nil p group => exact fun _ _ _ h => absurd h not_throws_segments_nil
  | literal p group text pieces ih =>
    intro s chain s' h
    obtain ⟨way, last, hleads, hfinds⟩ := ih (throws_segments_literal.1 h)
    exact ⟨way, last, hleads.cons _, hfinds⟩
  | token p group name pieces ih =>
    intro s chain s' h
    obtain ⟨-, herror, -⟩ | ⟨u, -, hrest⟩ := throws_segments_token.1 h
    · cases herror
    · obtain ⟨way, last, hleads, hfinds⟩ := ih hrest
      exact ⟨way, last, hleads.cons _, hfinds⟩
  | reference p group symbol reference pieces ihInside ih =>
    intro s chain s' h
    obtain ⟨-, herror, -⟩ | ⟨rfl, hfollow | ⟨t, s₁, -, hrest⟩⟩ := throws_segments_reference.1 h
    · cases herror
    · have hwritten : .placeholder ⟨some templateSymbol, reference⟩ ∈
          .placeholder ⟨some templateSymbol, reference⟩ :: pieces := List.mem_cons_self ..
      obtain ⟨hnew, ⟨-, herror, -⟩ | ⟨e, he, ⟨hheld, herror, hs⟩ | ⟨hfree, hconstruct⟩⟩⟩ :=
        throws_follow.1 hfollow
      · cases herror
      · -- The reference itself leads to a key that is held.
        cases herror
        subst hs
        refine ⟨[], _, .here hwritten, ⟨rfl, by simpa [Progress.isHeld, keyOf] using hheld⟩,
          by simp, ?_⟩
        rintro x (hx | rfl)
        · cases hx
        · exact hnew
      · obtain ⟨way, last, hleads, hfinds⟩ := leads_of_construct (ihInside e he hfree) hconstruct
        have hmissing :=
          template?_of_throws_construct (Progress.isHeld_append.2 (.inr rfl)) hnew hconstruct
        exact ⟨_, last, .along hwritten rfl he hleads, hfinds.cons hfree hmissing⟩
    · obtain ⟨way, last, hleads, hfinds⟩ := ih hrest
      exact ⟨way, last, hleads.cons _, hfinds⟩

/-- A circle is reported with the keys of a way from the template that was asked for to a key of
that way. -/
theorem finds_of_throws {e : TemplateEntry} {chain : List String}
    (h : Throws (createTemplate env table group name e) s (.circularReference chain) s') :
    ∃ way last, table.Leads env group (piecesOf env e.definition) way last ∧
      Progress.empty.Finds s'.registry ((group, name) :: way) last chain := by
  obtain ⟨-, herror, -⟩ | ⟨hnew, hconstruct⟩ := throws_createTemplate.1 h
  · cases herror
  · obtain ⟨way, last, hleads, hfinds⟩ := leads_of_construct (circles ..) hconstruct
    have hheld : (⟨[templateKey group name]⟩ : Progress).isHeld (templateKey group name) = true :=
      (Progress.isHeld_append (p := .empty)).2 (.inr rfl)
    have hmissing := template?_of_throws_construct hheld hnew hconstruct
    exact ⟨way, last, hleads,
      Progress.Finds.cons (p := .empty) (x := (group, name)) hfinds rfl hmissing⟩

theorem leads_of_throws {e : TemplateEntry} {chain : List String}
    (h : Throws (createTemplate env table group name e) s (.circularReference chain) s') :
    ∃ way last, table.Leads env group (piecesOf env e.definition) way last ∧
      chain = ((group, name) :: way ++ [last]).map keyOf ∧
      keyOf last ∈ ((group, name) :: way).map keyOf := by
  obtain ⟨way, last, hleads, hfinds⟩ := finds_of_throws h
  exact ⟨way, last, hleads, hfinds.chain_eq, hfinds.again⟩

/-! ## Keys that two templates share -/

/-- Two templates of one key are the same, if each of them is in a given group or in one without a
dot, unless that group has a dot in it and just one of them is there. -/
theorem eq_or_shared_of_keyOf_eq {x y : String × String} (h : keyOf x = keyOf y)
    (hx : x.1 = group ∨ '.' ∉ x.1.toList) (hy : y.1 = group ∨ '.' ∉ y.1.toList) :
    x = y ∨ '.' ∈ group.toList ∧ (x.1 = group ∧ '.' ∉ y.1.toList ∨
      y.1 = group ∧ '.' ∉ x.1.toList) := by
  by_cases hdot : '.' ∈ y.1.toList
  · have hy' : y.1 = group := hy.resolve_right fun hnot => hnot hdot
    obtain hx' | hx' := hx
    · left
      unfold keyOf at h
      rw [hx', hy', templateKey, templateKey, String.append_right_inj] at h
      exact Prod.ext (hx'.trans hy'.symm) h
    · exact .inr ⟨hy' ▸ hdot, .inr ⟨hy', hx'⟩⟩
  · obtain heq | ⟨hdots, -⟩ := lt_of_templateKey_eq h hdot
    · exact .inl heq
    · have hx' : x.1 = group := hx.resolve_right fun hnot => hnot hdots
      exact .inr ⟨hx' ▸ hdots, .inl ⟨hx', hdot⟩⟩

/-- **A reported circle is genuine, but for keys that two templates share.** Whatever the registry
and the table hold, references really lead from the given definition along templates, which are
those under construction, to one whose key is held; and this is one of them, unless the group of the
template that was asked for has a dot in it and the key belongs to a template of that group and to
another one of a group without a dot. -/
theorem circularReference_genuine {e : TemplateEntry} {chain : List String}
    (h : (createTemplate env table group name e).outcome s =
      (.error (.circularReference chain), s')) :
    ∃ way last, table.Leads env group (piecesOf env e.definition) way last ∧
      chain = ((group, name) :: way ++ [last]).map keyOf ∧
      (last ∈ (group, name) :: way ∨
        '.' ∈ group.toList ∧ ∃ x ∈ (group, name) :: way, keyOf x = keyOf last ∧
          (x.1 = group ∧ '.' ∉ last.1.toList ∨ last.1 = group ∧ '.' ∉ x.1.toList)) := by
  obtain ⟨way, last, hleads, hchain, hagain⟩ := leads_of_throws h
  refine ⟨way, last, hleads, hchain, ?_⟩
  obtain ⟨x, hx, hkey⟩ := List.mem_map.1 hagain
  have hgroup : x.1 = group ∨ '.' ∉ x.1.toList := by
    rcases List.mem_cons.1 hx with rfl | hx
    · exact .inl rfl
    · exact hleads.group_eq_or x (.inl hx)
  obtain rfl | ⟨hdot, hshared⟩ :=
    eq_or_shared_of_keyOf_eq hkey hgroup (hleads.group_eq_or last (.inr rfl))
  · exact .inl hx
  · exact .inr ⟨hdot, x, hx, hkey, hshared⟩

/-- Two templates that refer to each other. -/
def mutualTable : TemplateTable :=
  ((Catalog.empty.withTemplate "template" "a" (.ofString "{@b}")).withTemplate "template" "b"
    (.ofString "x{@a}")).templates

theorem circularReference_genuine_mutual :
    (createTemplate noVariables mutualTable "template" "a" (.ofString "{@b}")).outcome .empty =
        (.error (.circularReference ["template.a", "template.b", "template.a"]),
          ⟨.empty, [.templateStarted "template.b" 2, .templateStarted "template.a" 1]⟩) ∧
      ∃ way last, mutualTable.Leads noVariables "template" (piecesOf noVariables "{@b}") way last ∧
        ["template.a", "template.b", "template.a"] =
          (("template", "a") :: way ++ [last]).map keyOf ∧
        (last ∈ ("template", "a") :: way ∨
          '.' ∈ "template".toList ∧ ∃ x ∈ ("template", "a") :: way, keyOf x = keyOf last ∧
            (x.1 = "template" ∧ '.' ∉ last.1.toList ∨ last.1 = "template" ∧ '.' ∉ x.1.toList)) := by
  have hpieces : piecesOf noVariables "{@b}" = [.placeholder ⟨some templateSymbol, "b"⟩] := by
    decide +kernel
  have hback : piecesOf noVariables "x{@a}" =
      [.literal "x", .placeholder ⟨some templateSymbol, "a"⟩] := by
    decide +kernel
  have htarget : referenceTarget "template" "b" = ("template", "b") := by decide +kernel
  have htargetBack : referenceTarget "template" "a" = ("template", "a") := by decide +kernel
  have hkey : templateKey "template" "b" = "template.b" := by decide +kernel
  have hkeyBack : templateKey "template" "a" = "template.a" := by decide +kernel
  have hfound : mutualTable.find? "template" "b" = some (.ofString "x{@a}") := by decide +kernel
  have hfoundBack : mutualTable.find? "template" "a" = some (.ofString "{@b}") := by decide +kernel
  have h : Throws (createTemplate noVariables mutualTable "template" "a" (.ofString "{@b}")) .empty
      (.circularReference ["template.a", "template.b", "template.a"])
      ⟨.empty, [.templateStarted "template.b" 2, .templateStarted "template.a" 1]⟩ := by
    refine throws_createTemplate.2 (.inr ⟨rfl, throws_construct.2 (.inl ?_)⟩)
    rw [TemplateEntry.ofString, hpieces, hkeyBack]
    refine throws_segments_reference.2 (.inr ⟨rfl, .inl ?_⟩)
    rw [htarget]
    refine throws_follow.2 ⟨rfl, .inr ⟨_, hfound, .inr ⟨?_, throws_construct.2 (.inl ?_)⟩⟩⟩
    · rw [hkey]
      decide
    rw [TemplateEntry.ofString, hback, hkey]
    refine throws_segments_literal.2 (throws_segments_reference.2 (.inr ⟨rfl, .inl ?_⟩))
    rw [htargetBack]
    refine throws_follow.2 ⟨rfl, .inr ⟨_, hfoundBack, .inl ⟨?_, ?_, rfl⟩⟩⟩
    · rw [hkeyBack]
      decide
    · rw [hkeyBack]
      rfl
  have hgenuine := circularReference_genuine h
  exact ⟨h, hgenuine⟩

/-- A template of the key `a.b.c`, in a group without a dot. -/
def sharedKeyTable : TemplateTable :=
  (Catalog.empty.withTemplate "a" "b.c" (.ofString "x")).templates

/-- The template `c` of the group `a.b` refers to `b.c` of the group `a`, which refers to nothing;
but the two have one key, and a circle is reported. -/
theorem circularReference_sharedKey :
    (createTemplate noVariables sharedKeyTable "a.b" "c" (.ofString "{@a.b.c}")).outcome .empty =
        (.error (.circularReference ["a.b.c", "a.b.c"]), ⟨.empty, [.templateStarted "a.b.c" 1]⟩) ∧
      ∀ way last, sharedKeyTable.Leads noVariables "a.b" (piecesOf noVariables "{@a.b.c}") way last
        → last ∉ ("a.b", "c") :: way := by
  have hpieces : piecesOf noVariables "{@a.b.c}" =
      [.placeholder ⟨some templateSymbol, "a.b.c"⟩] := by decide +kernel
  have hother : piecesOf noVariables "x" = [.literal "x"] := by decide +kernel
  have htarget : referenceTarget "a.b" "a.b.c" = ("a", "b.c") := by decide +kernel
  have hreference : ∀ {reference : String},
      Piece.placeholder ⟨some templateSymbol, reference⟩ ∈ piecesOf noVariables "{@a.b.c}" →
      reference = "a.b.c" := by
    intro reference written
    simpa [hpieces] using written
  constructor
  · refine throws_createTemplate.2 (.inr ⟨rfl, throws_construct.2 (.inl ?_)⟩)
    rw [TemplateEntry.ofString, hpieces]
    refine throws_segments_reference.2
      (.inr ⟨rfl, .inl (throws_follow.2 ⟨rfl, .inr ⟨.ofString "x", ?_, .inl ?_⟩⟩)⟩)
    · rw [htarget]
      rfl
    · exact ⟨by decide +kernel, by decide +kernel, rfl⟩
  · intro way last hleads
    cases hleads with
    | here written =>
      rw [hreference written, htarget]
      decide
    | @along _ reference group' name' _ e way last written target found rest =>
      rw [hreference written, htarget] at target
      cases target
      have he : e = .ofString "x" := by
        have hfound : sharedKeyTable.find? "a" "b.c" = some (.ofString "x") := rfl
        rw [hfound] at found
        exact (Option.some.inj found).symm
      rw [he, TemplateEntry.ofString, hother] at rest
      cases rest with
      | here written => simp at written
      | along written => simp at written

end Stencil
