import Stencil.Proofs.Definition.Expanding
import Stencil.Proofs.Definition.Splitting
import Stencil.Proofs.Registry.Growing

/-!
# Variables that are not set

A definition is read twice: first its variables are put in, and then what has come of it is taken
apart into pieces. A reference to a variable that is not set is left as it is written the first
time, and so it is read again the second time. Without braces it is then literal text
(`inLiteral_of_dollar`). In braces it is not, for what is behind its dollar sign has the form of a
placeholder, wherever it stands (`piecesOf_braced`): the dollar sign ends a literal, and in place of
the rest comes the token of the variable's name, which has to be there for anything to be built
(`unset_exact`).
-/

namespace Stencil

open Definition Build

variable {env : Environment} {table : TemplateTable} {p : Progress}
  {s s' : Session} {group name : String} {w rest before after cs ds : List Char}
  {ps front back : List Piece} {e : TemplateEntry}

namespace Definition

/-! ## Text in literals -/

/-- Behind the text in front of it, a part of a text that pieces make up is in one literal. -/
def InLiteral (ps : List Piece) (before w : List Char) : Prop :=
  ∃ front text back start stop, ps = front ++ .literal text :: back ∧
    text.toList = start ++ w ++ stop ∧ front.flatMap Piece.chars ++ start = before

theorem InLiteral.cons {piece : Piece} (h : InLiteral ps before w) :
    InLiteral (piece :: ps) (piece.chars ++ before) w := by
  obtain ⟨front, text, back, start, stop, rfl, htext, rfl⟩ := h
  exact ⟨piece :: front, text, back, start, stop, rfl, htext,
    by rw [List.flatMap_cons, List.append_assoc]⟩

/-- A dollar sign in a placeholder is directly behind the brace. -/
theorem IsPlaceholder.eq_of_dollar (h : IsPlaceholder w) (hw : w = cs ++ '$' :: ds) :
    cs = ['{'] := by
  have hrun : ∀ {run : List Char}, (∀ c ∈ run, isReferenceChar c = true) → '$' ∉ run ++ ['}'] := by
    intro run hrun hmem
    rcases List.mem_append.1 hmem with hmem | hmem
    · exact absurd (hrun _ hmem) (by decide)
    · simp at hmem
  cases h with
  | plain _ run =>
    cases cs with
    | nil => simp at hw
    | cons c cs =>
      rw [List.cons_append, List.cons.injEq] at hw
      exact absurd (hw.2 ▸ by simp) (hrun run)
  | signed _ _ run =>
    rcases cs with _ | ⟨c, _ | ⟨d, cs⟩⟩
    · simp at hw
    · simp only [List.cons_append, List.nil_append, List.cons.injEq] at hw
      rw [hw.1]
    · simp only [List.cons_append, List.cons.injEq] at hw
      exact absurd (hw.2.2 ▸ by simp) (hrun run)

/-- A dollar sign that does not stand behind a brace is in a literal, with what follows it up to the
next brace. -/
theorem inLiteral_of_dollar (hsep : Separated ps) (hform : ∀ p, .placeholder p ∈ ps → p.WellFormed)
    (h : ps.flatMap Piece.chars = before ++ '$' :: (w ++ after)) (hw : '{' ∉ w)
    (hbefore : before.getLast? ≠ some '{') : InLiteral ps before ('$' :: w) := by
  induction ps generalizing before with
  | nil => simp at h
  | cons piece ps ih =>
    have hrest := fun before => @ih before hsep.tail fun p hp => hform p (List.mem_cons_of_mem _ hp)
    rw [List.flatMap_cons, List.append_eq_append_iff] at h
    obtain ⟨before', rfl, h⟩ | ⟨cs, hpiece, h⟩ := h
    · refine (hrest before' h fun hlast => hbefore ?_).cons
      rw [List.getLast?_append, hlast, Option.some_or]
    · cases cs with
      | nil =>
        have hcons : InLiteral (piece :: ps) (piece.chars ++ []) ('$' :: w) :=
          (hrest [] h.symm (by simp)).cons
        rwa [List.append_nil, hpiece, List.append_nil] at hcons
      | cons c cs =>
        obtain ⟨rfl, htail⟩ := List.cons.inj h
        cases piece with
        | placeholder p =>
          have heq := (hform p (List.mem_cons_self ..)).form.eq_of_dollar hpiece
          exact absurd (by rw [heq]; rfl) hbefore
        | literal text =>
          -- The literal ends at a brace, and there is none in the part.
          obtain ⟨stop, rfl⟩ : ∃ stop, cs = w ++ stop := by
            obtain ⟨stop, hcs, -⟩ | ⟨ds, hw', hds⟩ := List.append_eq_append_iff.1 htail
            · exact ⟨stop, hcs⟩
            · cases ds with
              | nil => exact ⟨[], by rw [hw', List.append_nil, List.append_nil]⟩
              | cons d ds =>
                obtain rfl := hsep.head?_eq_brace (c := d) (by rw [hds]; rfl)
                exact absurd (by simp [hw']) hw
          exact ⟨[], text, ps, before, stop, rfl, by simpa [Piece.chars] using hpiece, rfl⟩

/-- A part of a text that goes on into a placeholder is in no literal. -/
theorem not_inLiteral {q : Placeholder} (hfront : front.flatMap Piece.chars = before ++ w)
    (hne : cs ≠ []) : ¬ InLiteral (front ++ .placeholder q :: back) before (w ++ cs) := by
  rintro ⟨front', text, back', start, stop, h, htext, rfl⟩
  have hlength := congrArg List.length hfront
  have hpos := List.length_pos_iff.2 hne
  -- The literal would be behind the placeholder, or else in front of it and too long.
  obtain ⟨_ | ⟨piece, more⟩, rfl, hmore⟩ | ⟨_ | ⟨piece, more⟩, rfl, hmore⟩ :=
    List.append_eq_append_iff.1 h
  · simp at hmore
  · obtain ⟨rfl, -⟩ := List.cons.inj hmore
    have hq : (Piece.placeholder q).chars.length = q.inner.length + 2 := by
      simp [Piece.chars, Placeholder.chars]
    simp only [List.flatMap_append, List.flatMap_cons, List.length_append, hq] at hlength
    omega
  · simp at hmore
  · obtain ⟨rfl, -⟩ := List.cons.inj hmore
    have hliteral : (Piece.literal text).chars.length = (start ++ (w ++ cs) ++ stop).length :=
      congrArg _ htext
    simp only [List.flatMap_append, List.flatMap_cons, List.length_append, hliteral] at hlength
    omega

/-- A dollar sign at the end of a text is the end of a literal. -/
theorem exists_literal_dollar (cs : List Char) : ∃ front text,
    pieces (.ofList (cs ++ ['$'])) = front ++ [.literal (text ++ "$")] ∧
      front.flatMap Piece.chars ++ text.toList = cs := by
  have hchars := chars_pieces (.ofList (cs ++ ['$']))
  have hsep : Separated (pieces (.ofList (cs ++ ['$']))) :=
    separated_joinLexemes chars_ne_nil_of_mem_scan
  rw [String.toList_ofList] at hchars
  rcases List.eq_nil_or_concat (pieces (.ofList (cs ++ ['$']))) with hps | ⟨front, piece, hps⟩
  · rw [hps] at hchars
    simp at hchars
  · rw [List.concat_eq_append] at hps
    rw [hps] at hchars hsep ⊢
    rw [List.flatMap_append, List.flatMap_singleton] at hchars
    cases piece with
    | placeholder q =>
      change front.flatMap Piece.chars ++ (('{' :: q.inner) ++ ['}']) = _ at hchars
      rw [← List.append_assoc] at hchars
      exact absurd (List.append_inj' hchars rfl).2 (by decide)
    | literal text =>
      have hne : text.toList ≠ [] := mt String.toList_eq_nil_iff.1 (hsep.nonempty text (by simp))
      obtain ⟨start, c, hstart⟩ := List.eq_nil_or_concat text.toList |>.resolve_left hne
      rw [Piece.chars, hstart, List.concat_eq_append, ← List.append_assoc] at hchars
      obtain ⟨rfl, hc⟩ := List.append_inj' hchars rfl
      obtain rfl := List.singleton_inj.1 hc
      refine ⟨front, .ofList start, ?_, by rw [String.toList_ofList]⟩
      have htext : text = .ofList start ++ "$" := by
        rw [← String.toList_inj, hstart]
        simp
      rw [htext]

/-! ## References that are read again -/

/-- The name of a variable can be that of a token. -/
theorem IsVariableName.wellFormed (h : IsVariableName name) :
    (⟨none, name⟩ : Placeholder).WellFormed := by
  have hne : name.toList ≠ [] := mt String.toList_eq_nil_iff.1 h.ne_empty
  have hopens : Opens [] name.toList :=
    ⟨.inl rfl, fun c hc => by simp [isReferenceChar, h.run c hc]⟩
  obtain ⟨c, cs, hcs⟩ := List.exists_cons_of_ne_nil hne
  have hread : Placeholder.ofInner ([] ++ name.toList) = ⟨none, name⟩ := by
    rw [List.nil_append, hcs, Placeholder.ofInner, if_pos (h.run c (by simp [hcs])), ← hcs,
      String.ofList_toList]
  exact hread ▸ hopens.wellFormed hne

theorem Refers.isName (h : Refers w name rest) : IsVariableName name := by
  cases h with
  | plain isName _ => exact isName
  | braced isName => exact isName

/-- A reference to a variable that is not set is left as it is, whatever stands on both sides of
it. -/
theorem Refers.expandChars_unset (h : Refers w name after) (hunset : env name = none)
    (before : List Char) :
    expandChars env (before ++ w ++ after) =
      expandChars env before ++ w ++ expandChars env after := by
  have hstays : standIn env w name = w := by rw [standIn, hunset]
  obtain ⟨cs, -, hcs, -, -⟩ := h.afterDollar_eq
  rw [List.append_assoc, hcs, expandChars_append_dollar, ← hcs, h.expandChars_eq, hstays,
    List.append_assoc]

end Definition

theorem piecesOf_eq (definition : String) :
    piecesOf env definition = pieces (.ofList (expandChars env definition.toList)) := rfl

/-- In braces, the name of a variable that is not set is read again as that of a token, behind the
dollar sign. -/
theorem piecesOf_braced {definition : String}
    (hrefers : Refers ('$' :: '{' :: (name.toList ++ ['}'])) name after) (hunset : env name = none)
    (hdefinition : definition.toList = before ++ ('$' :: '{' :: (name.toList ++ ['}'])) ++ after) :
    ∃ front text, front.flatMap Piece.chars ++ text.toList = expandChars env before ∧
      piecesOf env definition =
        front ++ [.literal (text ++ "$")] ++
          .placeholder ⟨none, name⟩ :: piecesOf env (.ofList after) := by
  obtain ⟨front, text, hfront, hbefore⟩ := exists_literal_dollar (expandChars env before)
  refine ⟨front, text, hbefore, ?_⟩
  have htext :
      expandChars env before ++ ('$' :: '{' :: (name.toList ++ ['}'])) ++ expandChars env after =
        expandChars env before ++ ['$'] ++ (⟨none, name⟩ : Placeholder).chars ++
          expandChars env after := by
    simp [Placeholder.chars, Placeholder.inner]
  rw [piecesOf_eq, piecesOf_eq, hdefinition, hrefers.expandChars_unset hunset, htext,
    pieces_append_placeholder hrefers.isName.wellFormed, hfront, String.toList_ofList]

/-- Without braces, a reference to a variable that is not set is literal text, unless it comes to
stand behind a brace. -/
theorem inLiteral_plain {definition : String} (hrefers : Refers ('$' :: name.toList) name after)
    (hunset : env name = none)
    (hdefinition : definition.toList = before ++ '$' :: name.toList ++ after)
    (hbrace : (expandChars env before).getLast? ≠ some '{') :
    InLiteral (piecesOf env definition) (expandChars env before) ('$' :: name.toList) := by
  have hchars : (piecesOf env definition).flatMap Piece.chars =
      expandChars env before ++ '$' :: (name.toList ++ expandChars env after) := by
    rw [piecesOf_eq, chars_pieces, String.toList_ofList, hdefinition,
      hrefers.expandChars_unset hunset, List.append_assoc, List.cons_append]
  have hname : '{' ∉ name.toList := fun hmem => absurd (hrefers.isName.run _ hmem) (by decide)
  exact inLiteral_of_dollar (separated_joinLexemes chars_ne_nil_of_mem_scan)
    (fun _ => wellFormed_of_mem_pieces) hchars hname hbrace

/-! ## Building -/

namespace Build

/-- Pieces are built one part after the other. -/
theorem segments_append : buildSegments env table p group (front ++ back) = (do
    let head ← buildSegments env table p group front
    let tail ← buildSegments env table p group back
    return head ++ tail) := by
  induction front with
  | nil => simp [segments_nil]
  | cons piece front ih =>
    match piece with
    | .literal text => simp [segments_literal, ih]
    | .placeholder ⟨none, name⟩ => simp [segments_token, ih]
    | .placeholder ⟨some symbol, reference⟩ =>
      rw [List.cons_append, segments_reference, segments_reference]
      split
      · rfl
      · simp [ih]

/-- A token among pieces is looked up between what is built from both sides of it. -/
theorem segments_append_token :
    buildSegments env table p group (front ++ .placeholder ⟨none, name⟩ :: back) = (do
      let head ← buildSegments env table p group front
      let token ← (← get).registry.token name
      let tail ← buildSegments env table p group back
      return head ++ .token token :: tail) := by
  rw [segments_append, segments_token]
  simp

/-- A literal is built without a registry. -/
theorem returns_literal (text : String) :
    Returns (buildSegments env table p group [.literal text]) s [.literal text] s :=
  returns_segments_literal.2 ⟨[], rfl, returns_segments_nil.2 ⟨rfl, rfl⟩⟩

end Build

section Tokens

variable {template : String} {t : Template} {head : List Segment}
  (hpieces : piecesOf env e.definition = front ++ .placeholder ⟨none, name⟩ :: back)

include hpieces

/-- A template with a token among its pieces has in its place the one that is registered. -/
theorem exists_token_of_createTemplate
    (h : Returns (createTemplate env table group template e) s t s') :
    ∃ u head tail, s.registry.token? name = some u ∧ t.segments = head ++ .token u :: tail ∧
      List.Forall₂ (s'.registry.Stands group) front head ∧
      List.Forall₂ (s'.registry.Stands group) back tail := by
  obtain ⟨r, hgrows, hnone, hrealizes, hs'⟩ := realizes_of_createTemplate h
  have hkeeps : r.Keeps s'.registry := hs' ▸ Registry.keeps_addTemplate (hrealizes.name_eq ▸ hnone)
  have hsegments := hrealizes.segments
  rw [hpieces] at hsegments
  have hhead := List.forall₂_take front.length hsegments
  have hrest := List.forall₂_drop front.length hsegments
  rw [List.take_left] at hhead
  rw [List.drop_left] at hrest
  obtain ⟨segment, tail, hstands, htail, hdrop⟩ := List.forall₂_cons_left_iff.1 hrest
  cases hstands with
  | @token _ u registered =>
    refine ⟨u, t.segments.take front.length, tail, ?_, ?_, ?_, ?_⟩
    · rwa [Registry.token?, hgrows.extends.tokens] at registered
    · rw [← hdrop, List.take_append_drop]
    · exact hhead.imp fun _ _ hstands => hstands.mono hkeeps
    · exact htail.imp fun _ _ hstands => hstands.mono hkeeps

/-- Without the token a template is not built, and the first error that comes up is that it is
missing. -/
theorem throws_createTemplate_token (hnone : s.registry.template? group template = none)
    (htoken : s.registry.token? name = none)
    (hfront : Returns (buildSegments env table ⟨[templateKey group template]⟩ group front)
      ⟨s.registry, .templateStarted (templateKey group template) 1 :: s.events⟩ head s') :
    Throws (createTemplate env table group template e) s (.missingToken name) s' := by
  have hmissing : s'.registry.token name = .error (.missingToken name) := by
    have htokens : s'.registry.tokens = s.registry.tokens :=
      (builds _ _ _ _ _ hfront).1.extends.tokens
    rw [Registry.token, Registry.token?, htokens, ← Registry.token?, htoken]
  refine throws_createTemplate.2 (.inr ⟨hnone, throws_construct.2 (.inl ?_)⟩)
  rw [hpieces, segments_append_token, throws_bind]
  refine .inr ⟨head, s', hfront, ?_⟩
  rw [throws_get_bind, throws_liftM_bind]
  exact .inl ⟨hmissing, rfl⟩

end Tokens

/-- Wherever a template is built from a definition, the token of a name is looked up between what is
built from the pieces in front of it and from those behind it. -/
structure LooksUp (env : Environment) (e : TemplateEntry) (name : String)
    (front back : List Piece) : Prop where
  steps : ∀ table p group, buildSegments env table p group (piecesOf env e.definition) = (do
    let head ← buildSegments env table p group front
    let token ← (← get).registry.token name
    let tail ← buildSegments env table p group back
    return head ++ .token token :: tail)
  found : ∀ table group template s t s',
    (createTemplate env table group template e).outcome s = (.ok t, s') → ∃ u head tail,
      s.registry.token? name = some u ∧ t.segments = head ++ .token u :: tail ∧
      List.Forall₂ (s'.registry.Stands group) front head ∧
      List.Forall₂ (s'.registry.Stands group) back tail
  /-- What is in front of the token can be built, but the token is not registered. -/
  missing : ∀ table group template s head s', s.registry.template? group template = none →
    s.registry.token? name = none →
    (buildSegments env table ⟨[templateKey group template]⟩ group front).outcome
      ⟨s.registry, .templateStarted (templateKey group template) 1 :: s.events⟩ = (.ok head, s') →
    (createTemplate env table group template e).outcome s = (.error (.missingToken name), s')

theorem looksUp_of_piecesOf
    (hpieces : piecesOf env e.definition = front ++ .placeholder ⟨none, name⟩ :: back) :
    LooksUp env e name front back where
  steps table p group := by rw [hpieces, segments_append_token]
  found _ _ _ _ _ _ h := exists_token_of_createTemplate hpieces h
  missing _ _ _ _ _ _ hnone htoken hfront := throws_createTemplate_token hpieces hnone htoken hfront

/-- **A variable that is not set stays text only without braces.** Where a definition refers to it
without braces, the reference as it is written is in one literal, behind what the text in front of
it has become, unless this ends in a brace. Where the definition refers to it in braces, the
reference is in no literal, whatever is around it. Then only the dollar sign is at the end of a
literal, and the rest is the token of the variable's name: building always looks it up, a template
that is built has the token there, and without it nothing is built. -/
theorem unset_exact (hdefinition : e.definition.toList = before ++ w ++ after)
    (hrefers : Refers w name after) (hunset : env name = none) :
    (w = '$' :: name.toList → (expandChars env before).getLast? ≠ some '{' →
      InLiteral (piecesOf env e.definition) (expandChars env before) w) ∧
    (w = '$' :: '{' :: (name.toList ++ ['}']) →
      ¬ InLiteral (piecesOf env e.definition) (expandChars env before) w ∧
        ∃ front text, front.flatMap Piece.chars ++ text.toList = expandChars env before ∧
          piecesOf env e.definition =
            front ++ [.literal (text ++ "$")] ++ .placeholder ⟨none, name⟩ ::
              piecesOf env (.ofList after) ∧
          LooksUp env e name (front ++ [.literal (text ++ "$")])
            (piecesOf env (.ofList after))) := by
  constructor
  · rintro rfl hbrace
    exact inLiteral_plain hrefers hunset hdefinition hbrace
  · rintro rfl
    obtain ⟨front, text, hbefore, hpieces⟩ := piecesOf_braced hrefers hunset hdefinition
    refine ⟨?_, front, text, hbefore, hpieces, looksUp_of_piecesOf hpieces⟩
    have hfront : (front ++ [Piece.literal (text ++ "$")]).flatMap Piece.chars =
        expandChars env before ++ ['$'] := by
      rw [← hbefore]
      simp [Piece.chars]
    rw [hpieces]
    exact not_inLiteral (w := ['$']) hfront (List.cons_ne_nil _ _)

/-- A variable without braces and in braces, between letters. -/
theorem unset_exact_betweenLetters :
    ("v$A-".toList = ['v'] ++ ['$', 'A'] ++ ['-'] ∧ Refers ['$', 'A'] "A" ['-'] ∧
      "v${A}_".toList = ['v'] ++ ['$', '{', 'A', '}'] ++ ['_'] ∧
      Refers ['$', '{', 'A', '}'] "A" ['_'] ∧ noVariables "A" = none ∧
      (expandChars noVariables ['v']).getLast? ≠ some '{') ∧
      InLiteral (piecesOf noVariables "v$A-") (expandChars noVariables ['v']) ['$', 'A'] ∧
      ¬ InLiteral (piecesOf noVariables "v${A}_") (expandChars noVariables ['v'])
        ['$', '{', 'A', '}'] ∧
      ∃ s, (createTemplate noVariables .empty "template" "t" (.ofString "v${A}_")).outcome .empty =
        (.error (.missingToken "A"), s) := by
  have isName : IsVariableName "A" := ⟨by decide, by simp [isNameChar]⟩
  have hplain : Refers ('$' :: "A".toList) "A" ['-'] := .plain isName (by simp [isNameChar])
  have hbraced : Refers ('$' :: '{' :: ("A".toList ++ ['}'])) "A" ['_'] := .braced isName
  have hbrace : (expandChars noVariables ['v']).getLast? ≠ some '{' := by decide +kernel
  have hunset : noVariables "A" = none := rfl
  have hwithout : (TemplateEntry.ofString "v$A-").definition.toList =
      ['v'] ++ ('$' :: "A".toList) ++ ['-'] := rfl
  have hwith : (TemplateEntry.ofString "v${A}_").definition.toList =
      ['v'] ++ ('$' :: '{' :: ("A".toList ++ ['}'])) ++ ['_'] := rfl
  have hliteral := (unset_exact hwithout hplain hunset).1 rfl hbrace
  obtain ⟨hnot, front, text, -, hpieces, hlooks⟩ := (unset_exact hwith hbraced hunset).2 rfl
  refine ⟨⟨rfl, hplain, rfl, hbraced, rfl, hbrace⟩, hliteral, hnot, ?_⟩
  have hread : piecesOf noVariables "v${A}_" = [.literal "v$", .placeholder ⟨none, "A"⟩,
      .literal "_"] := by
    decide +kernel
  have hback : piecesOf noVariables (.ofList ['_']) = [.literal "_"] := by decide +kernel
  have hlength := congrArg List.length (hread.symm.trans hpieces)
  rw [hback] at hlength
  obtain rfl : front = [] := List.length_eq_zero_iff.1 (by simpa using hlength)
  exact ⟨_, hlooks.missing .empty "template" "t" .empty _ _ rfl rfl (returns_literal _)⟩

/-- A variable in braces that is not set, and nothing else: without braces it is one literal, and in
braces there is nothing to build without a token of its name. -/
theorem createTemplate_unsetBraced :
    noVariables "A" = none ∧ expandVariables noVariables "${A}" = "${A}" ∧
      piecesOf noVariables "$A" = [.literal "$A"] ∧
      piecesOf noVariables "${A}" = [.literal "$", .placeholder ⟨none, "A"⟩] ∧
      ¬ InLiteral (piecesOf noVariables "${A}") [] "${A}".toList ∧
      ∃ s, (createTemplate noVariables .empty "template" "t" (.ofString "${A}")).outcome .empty =
        (.error (.missingToken "A"), s) := by
  have hread : piecesOf noVariables "${A}" = [.literal "$"] ++ .placeholder ⟨none, "A"⟩ :: [] := by
    decide +kernel
  refine ⟨rfl, by decide +kernel, by decide +kernel, hread, ?_, _,
    throws_createTemplate_token (e := .ofString "${A}") hread rfl rfl (returns_literal "$")⟩
  rw [hread]
  exact not_inLiteral (w := ['$']) rfl (List.cons_ne_nil '{' ['A', '}'])

end Stencil
