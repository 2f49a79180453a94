import Stencil.Proofs.Registry.Circles
import Stencil.Proofs.Registry.Nesting
import Stencil.Proofs.Registry.Retrying

/-!
# The way to a circle

The chain of a circle is a way along references, each of which the definition behind one template
really has, from the template that was asked for to a key that is on the way; and no template of the
way has been completed (`circularReference_way`). Building on one stack for the whole call
(`Build.buildOn`) reports the same chain.
-/

namespace Stencil

open Definition Build

variable {α β : Type} {env : Environment} {table : TemplateTable}
  {s s' : Session} {group name : String} {pieces : List Piece} {e : TemplateEntry}

/-! ## References from one template to the next -/

namespace TemplateTable

/-- The definition behind a template, when one is asked for with a definition of its own. -/
def behind (table : TemplateTable) (asked : String × String)
    (e : TemplateEntry) (x : String × String) : Option TemplateEntry :=
  if x = asked then some e else table.find? x.1 x.2

/-- The definition behind one template, with its variables put in, has a reference to another
one. -/
def Refers (table : TemplateTable) (env : Environment) (asked : String × String) (e : TemplateEntry)
    (x y : String × String) : Prop :=
  ∃ d reference, table.behind asked e x = some d ∧
    .placeholder ⟨some templateSymbol, reference⟩ ∈ piecesOf env d.definition ∧
      referenceTarget x.1 reference = y

/-- A way does not come back to the template that was asked for, but at its end. -/
theorem Leads.isChain {asked last x : String × String} {way : List (String × String)}
    {d : TemplateEntry} (h : table.Leads env group pieces way last) (hgroup : group = x.1)
    (hpieces : pieces = piecesOf env d.definition) (hx : table.behind asked e x = some d)
    (hway : asked ∉ way) : List.IsChain (table.Refers env asked e) (x :: way ++ [last]) := by
  induction h generalizing x d with
  | here written =>
    subst hgroup hpieces
    exact List.IsChain.cons_cons ⟨d, _, hx, written, rfl⟩ (List.IsChain.singleton _)
  | @along group reference group' name' pieces e' way last written target found rest ih =>
    subst hgroup hpieces
    have hne : (group', name') ≠ asked := fun heq => hway (heq ▸ List.mem_cons_self ..)
    have hbehind : table.behind asked e (group', name') = some e' := by
      rw [behind, if_neg hne, found]
    have hrest := ih rfl rfl hbehind fun hmem => hway (List.mem_cons_of_mem _ hmem)
    exact List.IsChain.cons_cons ⟨d, _, hx, written, target⟩ hrest

end TemplateTable

namespace Build

theorem outcome_map_of_throws {b : Build α} {f : α → β} {error : BuildError}
    (h : Throws b s error s') :
    Limited.outcome (f <$> Limited.ofBuild b) s = some (.error error, s') := by
  rw [← Limited.ofBuild_map, Limited.outcome_ofBuild]
  exact congrArg some (throws_bind_pure.2 h)

end Build

/-- **A reported circle is the way that building has taken.** Whatever is registered and whatever
the table holds: the chain has the keys of templates from the one that was asked for, the definition
behind each of which refers to the next one. All keys but the last are different, and the last is
one of them; and none of these templates has been completed. A builder that keeps the keys on one
stack for the whole call reports this chain, and nothing else. -/
theorem circularReference_way {chain : List String}
    (h : (createTemplate env table group name e).outcome s =
      (.error (.circularReference chain), s')) :
    (∃ way last, chain = ((group, name) :: way ++ [last]).map keyOf ∧
      List.IsChain (table.Refers env (group, name) e) ((group, name) :: way ++ [last]) ∧
      (((group, name) :: way).map keyOf).Nodup ∧ keyOf last ∈ ((group, name) :: way).map keyOf ∧
      ∀ x ∈ (group, name) :: way ++ [last], s'.registry.template? x.1 x.2 = none) ∧
    Limited.outcome ((buildOn env table (table.size + 2) group name e).run .empty) s =
      some (.error (.circularReference chain), s') := by
  constructor
  · obtain ⟨way, last, hleads, hfinds⟩ := finds_of_throws h
    have hdistinct : (((group, name) :: way).map keyOf).Nodup := hfinds.distinct List.nodup_nil
    have hway : (group, name) ∉ way := by
      intro hmem
      rw [List.map_cons, List.nodup_cons] at hdistinct
      exact hdistinct.1 (List.mem_map_of_mem hmem)
    refine ⟨way, last, hfinds.chain_eq, hleads.isChain rfl rfl (if_pos rfl) hway,
      hdistinct, hfinds.again, fun x hx => hfinds.missing x ?_⟩
    simpa [or_assoc] using hx
  · rw [buildOn_eq (Nat.lt_succ_self _)]
    exact outcome_map_of_throws h

/-- A template that refers to another one, which refers to a letter and then back. -/
def wayBackTable : TemplateTable :=
  (((Catalog.empty.withTemplate "template" "part" (.ofString "s")).withTemplate "template" "back"
    (.ofString "{@part}{@whole}")).withTemplate "template" "whole" (.ofString "{@back}")).templates

/-- The letter is completed on the way, and is not in the chain. -/
theorem circularReference_way_back :
    ∃ s', (createTemplate noVariables wayBackTable "template" "whole" (.ofString "{@back}")).outcome
      .empty =
        (.error (.circularReference ["template.whole", "template.back", "template.whole"]), s') ∧
      s'.registry = Registry.empty.addTemplate "template" letterS ∧
      (∃ way last, ["template.whole", "template.back", "template.whole"] =
          (("template", "whole") :: way ++ [last]).map keyOf ∧
        List.IsChain (wayBackTable.Refers noVariables ("template", "whole") (.ofString "{@back}"))
          (("template", "whole") :: way ++ [last]) ∧
        ((("template", "whole") :: way).map keyOf).Nodup ∧
        keyOf last ∈ (("template", "whole") :: way).map keyOf ∧
        ∀ x ∈ ("template", "whole") :: way ++ [last], s'.registry.template? x.1 x.2 = none) ∧
      Limited.outcome ((buildOn noVariables wayBackTable (wayBackTable.size + 2) "template" "whole"
          (.ofString "{@back}")).run .empty) .empty =
        some (.error (.circularReference ["template.whole", "template.back", "template.whole"]),
          s') := by
  have hwhole : piecesOf noVariables "{@back}" = [.placeholder ⟨some templateSymbol, "back"⟩] := by
    decide +kernel
  have hback : piecesOf noVariables "{@part}{@whole}" =
      [.placeholder ⟨some templateSymbol, "part"⟩,
        .placeholder ⟨some templateSymbol, "whole"⟩] := by decide +kernel
  have hpart : piecesOf noVariables "s" = [.literal "s"] := by decide +kernel
  have hkeyWhole : templateKey "template" "whole" = "template.whole" := by decide +kernel
  have hkeyBack : templateKey "template" "back" = "template.back" := by decide +kernel
  have hletter :
      ∀ p s, Returns (buildSegments noVariables wayBackTable p "template"
        (piecesOf noVariables "s")) s letterS.segments s := by
    intro p s
    rw [hpart]
    exact returns_segments_literal.2 ⟨[], rfl, returns_segments_nil.2 ⟨rfl, rfl⟩⟩
  obtain ⟨s', hfollow, hs'⟩ :
    ∃ s', Returns (follow noVariables wayBackTable ⟨["template.whole", "template.back"]⟩
      ("template", "part")) ⟨.empty,
        [.templateStarted "template.back" 2, .templateStarted "template.whole" 1]⟩
      letterS s' ∧ s'.registry = Registry.empty.addTemplate "template" letterS :=
    ⟨_, returns_follow.2 (.inr ⟨rfl, .ofString "s", rfl, by decide +kernel,
      returns_construct.2 ⟨letterS.segments, _, hletter _ _,
        returns_finishTemplate.2 ⟨letterS, rfl, returns_insertTemplate.2 ⟨rfl, rfl, rfl⟩⟩⟩⟩), rfl⟩
  have h : Throws (createTemplate noVariables wayBackTable "template" "whole" (.ofString "{@back}"))
      .empty (.circularReference ["template.whole", "template.back", "template.whole"]) s' := by
    refine throws_createTemplate.2 (.inr ⟨rfl, throws_construct.2 (.inl ?_)⟩)
    rw [TemplateEntry.ofString, hwhole, hkeyWhole]
    refine throws_segments_reference.2
      (.inr ⟨rfl, .inl
        (throws_follow.2 ⟨rfl,
          .inr ⟨.ofString "{@part}{@whole}", rfl,
            .inr ⟨by decide +kernel, throws_construct.2 (.inl ?_)⟩⟩⟩)⟩)
    change Throws (buildSegments noVariables wayBackTable ⟨["template.whole"] ++
      [templateKey "template" "back"]⟩ "template" (piecesOf noVariables "{@part}{@whole}")) _ _ s'
    rw [hback, hkeyBack]
    refine throws_segments_reference.2 (.inr ⟨rfl, .inr ⟨letterS, s', hfollow, ?_⟩⟩)
    refine throws_segments_reference.2 (.inr ⟨rfl, .inl ?_⟩)
    refine throws_follow.2 ⟨?_, .inr ⟨.ofString "{@back}", rfl, .inl ?_⟩⟩
    · rw [hs']
      rfl
    · exact ⟨by decide +kernel, by decide +kernel, rfl⟩
  exact ⟨s', h, hs', circularReference_way h⟩

end Stencil
