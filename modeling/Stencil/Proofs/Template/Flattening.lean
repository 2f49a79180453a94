import Stencil.Proofs.Template.Parsing
import Stencil.Template.Diagnosis
import Stencil.Template.Format

/-!
# Nested templates

All that a template does goes through its segments in one order, and leaves the names and the kinds
of nested templates aside. So the template that is made of the flat segments alone cannot be told
apart from it (`create_flat`), and its formatting is described without recursion: each flat segment
adds its text (`Segment.Adds`), and the first token that nothing can be filled in for is the error
(`Template.Formats`).
-/

namespace Stencil

/-! ## What is filled in -/

/-- What comes of a token when it is filled in: the text that overrides it, or else its value, or
else its default where defaults are used; where there is none of these, it is missing. -/
inductive Token.Fills (fields : Fields) (o : FormatOptions) (u : Token) :
    Except FormatError String → Prop
  | override {w : String} (override : o.overrides.get? u.name = some w) : Fills fields o u (.ok w)
  | value {v : Value} (none : o.overrides.get? u.name = none)
      (value : fields.get? u.name = some v) :
    Fills fields o u (u.format v)
  | default {v : Value} (none : o.overrides.get? u.name = none)
      (noValue : fields.get? u.name = Option.none)
    (enabled : o.useDefaults = true) (default : u.default = some v) : Fills fields o u (u.format v)
  | missing (none : o.overrides.get? u.name = none) (noValue : fields.get? u.name = Option.none)
    (noDefault : o.useDefaults = true → u.default = Option.none) :
    Fills fields o u (.error (.missingToken u.name))

theorem Token.fill_eq_iff {fields : Fields} {o : FormatOptions} {u : Token}
    {r : Except FormatError String} : u.fill fields o = r ↔ u.Fills fields o r := by
  constructor
  · rintro rfl
    unfold fill
    cases ho : o.overrides.get? u.name with
    | some w => exact .override ho
    | none =>
      cases hv : fields.get? u.name with
      | some v => exact .value ho hv
      | none =>
        cases hd : u.default with
        | none => exact .missing ho hv fun _ => hd
        | some v =>
          by_cases huse : o.useDefaults = true
          · simp only [huse, if_true]
            exact .default ho hv huse hd
          · simp only [huse]
            exact .missing ho hv fun h => absurd h huse
  · intro h
    cases h with
    | override ho => simp only [fill, ho]
    | value ho hv => simp only [fill, ho, hv]
    | default ho hv huse hd => simp only [fill, ho, hv, hd, huse, if_true]
    | missing ho hv hd =>
      cases huse : o.useDefaults with
      | true => simp only [fill, ho, hv, hd huse]
      | false =>
        cases hdefault : u.default <;> simp only [fill, ho, hv, hdefault, huse, Bool.false_eq_true,
          if_false]

namespace Segment

variable {fields : Fields} {o : FormatOptions}

/-- What a flat segment adds to the text of its template. -/
inductive Adds (fields : Fields) (o : FormatOptions) : Segment → Except FormatError String → Prop
  | literal (w : String) : Adds fields o (.literal w) (.ok w)
  | token {u : Token} {r : Except FormatError String} (fills : u.Fills fields o r) :
      Adds fields o (.token u) r

theorem render_eq_iff {x : Segment} (hflat : x.isTemplate = false) {r : Except FormatError String} :
    x.render fields o = r ↔ x.Adds fields o r := by
  constructor
  · rintro rfl
    cases x with
    | literal w => exact .literal w
    | token u => exact .token (Token.fill_eq_iff.1 rfl)
    | template => cases hflat
  · intro h
    cases h with
    | literal w => rfl
    | token h => exact Token.fill_eq_iff.2 h

/-! ## Nested segments -/

theorem renderAll_append (ss ts : List Segment) :
    renderAll fields o (ss ++ ts) =
      (renderAll fields o ss).bind fun a => (renderAll fields o ts).map (a ++ ·) := by
  induction ss with
  | nil => cases h : renderAll fields o ts <;> simp [renderAll, Except.bind, Except.map, h]
  | cons x ss ih =>
    simp only [List.cons_append, renderAll, ih, bind, pure, Except.pure]
    cases x.render fields o with
    | error => rfl
    | ok a =>
      cases renderAll fields o ss with
      | error => rfl
      | ok b => cases renderAll fields o ts <;> simp [Except.bind, Except.map, String.append_assoc]

mutual

theorem renderAll_flatten : ∀ x : Segment, renderAll fields o x.flatten = x.render fields o
  | .literal w => by simp [flatten, renderAll, render, bind, Except.bind, pure, Except.pure]
  | .token t => by
    simp only [flatten, renderAll, render]
    cases t.fill fields o <;> simp [bind, Except.bind, pure, Except.pure]
  | .template _ _ ss => renderAll_flattenAll ss

/-- Rendering goes through nested templates. -/
theorem renderAll_flattenAll :
    ∀ ss : List Segment, renderAll fields o (flattenAll ss) = renderAll fields o ss
  | [] => rfl
  | x :: ss => by
    rw [flattenAll, renderAll_append, renderAll_flatten x, renderAll_flattenAll ss, renderAll]
    cases x.render fields o with
    | error => rfl
    | ok a => cases renderAll fields o ss <;> rfl

end

theorem patternAll_append (withSpecs : Bool) (ss ts : List Segment) :
    patternAll withSpecs (ss ++ ts) = patternAll withSpecs ss ++ patternAll withSpecs ts := by
  induction ss with
  | nil => simp [patternAll]
  | cons x ss ih => simp [patternAll, ih, String.append_assoc]

mutual

theorem patternAll_flatten (withSpecs : Bool) :
    ∀ x : Segment, patternAll withSpecs x.flatten = x.pattern withSpecs
  | .literal w => by simp [flatten, patternAll, pattern]
  | .token t => by simp [flatten, patternAll, pattern]
  | .template _ _ ss => patternAll_flattenAll withSpecs ss

/-- The pattern of placeholders goes through nested templates. -/
theorem patternAll_flattenAll (withSpecs : Bool) :
    ∀ ss : List Segment, patternAll withSpecs (flattenAll ss) = patternAll withSpecs ss
  | [] => rfl
  | x :: ss => by
    rw [flattenAll, patternAll_append, patternAll_flatten withSpecs x,
      patternAll_flattenAll withSpecs ss, patternAll]

end

/-- The expression goes through nested templates. -/
theorem regexAll_flattenAll (ss : List Segment) : regexAll (flattenAll ss) = regexAll ss :=
  congrArg Composition.regex (composeAll_flattenAll .empty ss)

/-! ## Texts one behind the other -/

/-- Each segment adds the text of its place. -/
abbrev AddAll (fields : Fields) (o : FormatOptions) (ss : List Segment)
    (parts : List String) : Prop :=
  List.Forall₂ (fun x w => x.Adds fields o (.ok w)) ss parts

theorem renderAll_eq_ok_iff {ss : List Segment} (hflat : ∀ x ∈ ss, x.isTemplate = false)
    {s : String} :
    renderAll fields o ss = .ok s ↔ ∃ parts, AddAll fields o ss parts ∧ String.join parts = s := by
  induction ss generalizing s with
  | nil => simp [renderAll]
  | cons x ss ih =>
    have ih {s : String} := @ih (fun y hy => hflat y (List.mem_cons_of_mem _ hy)) s
    simp only [renderAll, bind_eq_ok, ih, render_eq_iff (hflat x (List.mem_cons_self ..))]
    constructor
    · rintro ⟨w, hw, _, ⟨parts, hparts, rfl⟩, hs⟩
      cases hs
      exact ⟨w :: parts, .cons hw hparts, String.join_cons⟩
    · rintro ⟨parts, hparts, rfl⟩
      cases hparts with
      | cons hw hparts =>
        exact ⟨_, hw, _, ⟨_, hparts, rfl⟩, congrArg Except.ok String.join_cons.symm⟩

theorem renderAll_eq_error_iff {ss : List Segment} (hflat : ∀ x ∈ ss, x.isTemplate = false)
    {e : FormatError} :
    renderAll fields o ss = .error e ↔ ∃ before u behind parts, ss = before ++ .token u :: behind ∧
      AddAll fields o before parts ∧ u.Fills fields o (.error e) := by
  induction ss with
  | nil => simp [renderAll]
  | cons x ss ih =>
    have ih := ih fun y hy => hflat y (List.mem_cons_of_mem _ hy)
    have hx {r : Except FormatError String} :=
      @render_eq_iff fields o x (hflat x (List.mem_cons_self ..)) r
    constructor
    · intro h
      cases hrender : x.render fields o with
      | error e' =>
        rw [renderAll, hrender] at h
        cases h
        cases hx.1 hrender with
        | @token u _ hu => exact ⟨[], u, ss, [], rfl, .nil, hu⟩
      | ok w =>
        cases hrest : renderAll fields o ss with
        | ok s =>
          rw [renderAll, hrender, hrest] at h
          cases h
        | error e' =>
          rw [renderAll, hrender, hrest] at h
          cases h
          obtain ⟨before, u, behind, parts, rfl, hparts, hu⟩ := ih.1 hrest
          exact ⟨x :: before, u, behind, w :: parts, rfl, .cons (hx.1 hrender) hparts, hu⟩
    · rintro ⟨before, u, behind, parts, heq, hparts, hu⟩
      cases hparts with
      | nil =>
        obtain ⟨rfl, -⟩ := List.cons.inj heq
        rw [renderAll, hx.2 (.token hu)]
        rfl
      | @cons y w before parts hw hparts =>
        obtain ⟨rfl, htail⟩ := List.cons.inj heq
        rw [renderAll, hx.2 hw, ih.2 ⟨before, u, behind, parts, htail, hparts, hu⟩]
        rfl

end Segment

/-! ## The template of the flat segments -/

namespace Template

open Segment

variable {t : Template}

/-- What comes of a template when it is formatted: the texts of its flat segments one behind the
other, in the form of the template's own kind; or the error of the first token that none can be
filled in for. -/
inductive Formats (t : Template) (fields : Fields) (o : FormatOptions) :
    Except FormatError String → Prop
  | done {parts : List String} (all : AddAll fields o t.flat parts) :
    Formats t fields o (.ok (t.kind.finish (String.join parts)))
  | failed {before behind : List Segment} {u : Token} {parts : List String} {e : FormatError}
    (split : t.flat = before ++ .token u :: behind) (all : AddAll fields o before parts)
    (fills : u.Fills fields o (.error e)) : Formats t fields o (.error e)

theorem format_eq_iff {fields : Fields} {o : FormatOptions} {r : Except FormatError String} :
    t.format fields o = r ↔ t.Formats fields o r := by
  have hflat : ∀ x ∈ t.flat, x.isTemplate = false := not_isTemplate_flattenAll t.segments
  have hformat : t.format fields o = (renderAll fields o t.flat).map t.kind.finish := by
    rw [format, flat, renderAll_flattenAll]
  rw [hformat]
  constructor
  · rintro rfl
    cases h : renderAll fields o t.flat with
    | ok s =>
      obtain ⟨parts, hparts, rfl⟩ := (renderAll_eq_ok_iff hflat).1 h
      exact .done hparts
    | error e =>
      obtain ⟨before, u, behind, parts, hsplit, hparts, hu⟩ := (renderAll_eq_error_iff hflat).1 h
      exact .failed hsplit hparts hu
  · intro h
    cases h with
    | done hparts =>
      rw [(renderAll_eq_ok_iff hflat).2 ⟨_, hparts, rfl⟩]
      rfl
    | failed hsplit hparts hu =>
      rw [(renderAll_eq_error_iff hflat).2 ⟨_, _, _, _, hsplit, hparts, hu⟩]
      rfl

/-- Two templates do the same. -/
structure ActAlike (t f : Template) : Prop where
  regex_eq : f.regex = t.regex
  pattern_eq : ∀ withSpecs, f.pattern withSpecs = t.pattern withSpecs
  format_eq : ∀ fields o, f.format fields o = t.format fields o
  parse_eq : ∀ s, f.parse s = t.parse s
  extract_eq : ∀ s, f.extract s = t.extract s
  diagnose_eq : ∀ s, f.diagnose s = t.diagnose s

/-- Templates with the same flat segments and the same expressions do the same. -/
theorem actAlike_of_flat {f : Template} (hname : f.name = t.name) (hkind : f.kind = t.kind)
    (hflat : f.flat = t.flat) (hwhole : f.whole = t.whole) (hleading : f.leading = t.leading) :
    ActAlike t f := by
  have hpattern : ∀ withSpecs, f.pattern withSpecs = t.pattern withSpecs := by
    intro withSpecs
    rw [pattern, pattern, ← patternAll_flattenAll, ← patternAll_flattenAll withSpecs t.segments]
    exact congrArg _ hflat
  have hmatch : ∀ e s, f.matchWith e s = t.matchWith e s := by
    intro e s
    have htokens : f.tokens false = t.tokens false := congrArg (List.filterMap token?) hflat
    simp only [matchWith, hkind, hname, htokens, display, hpattern]
  refine ⟨?_, hpattern, fun fields o => ?_, fun s => ?_, fun s => ?_, fun s => ?_⟩
  · rw [regex, regex, ← regexAll_flattenAll, ← regexAll_flattenAll t.segments]
    exact congrArg _ hflat
  · rw [format, format, ← renderAll_flattenAll, ← renderAll_flattenAll t.segments, hkind]
    exact congrArg (fun ss => (renderAll fields o ss).map t.kind.finish) hflat
  · rw [parse, parse, hmatch, hwhole]
  · rw [extract, extract, hmatch, hleading, hkind]
  · rw [diagnose, diagnose, hflat, hkind]

/-- **A template with nested templates is as the template of its flat segments**: that can be made,
holds no nested template, and does the same; and what comes of formatting is what its flat segments
add one behind the other. -/
theorem create_flat {name : String} {kind : TemplateKind} {segments : List Segment}
    (h : create name kind segments = .ok t) :
    ∃ f, create t.name t.kind (t.segmentsOf false) = .ok f ∧
      (∀ x ∈ f.segments, x.isTemplate = false) ∧ ActAlike t f ∧ ∀ fields o r,
        t.format fields o = r ↔ t.Formats fields o r := by
  obtain ⟨rfl, rfl, rfl, hwhole, hleading⟩ := create_eq h
  have hf : create t.name t.kind (t.segmentsOf false) = .ok { t with segments := t.flat } := by
    have hregex : regexAll (t.segmentsOf false) = t.regex := regexAll_flattenAll t.segments
    simp only [create, hregex, hwhole, hleading]
    rfl
  have hflat : flattenAll t.flat = t.flat := flattenAll_flattenAll t.segments
  exact ⟨_, hf, not_isTemplate_flattenAll t.segments, actAlike_of_flat rfl rfl hflat rfl rfl,
    fun _ _ _ => format_eq_iff⟩

/-- A path of a token that stands twice, the second time in a path within another template. -/
def lettersNested : Template :=
  { lettersTwice with
    kind := .path
    segments := [.token letters, .template "rest" .standard [.literal "-",
      .template "again" .path [.token letters]]] }

theorem create_flat_lettersNested :
    create "t" .path lettersNested.segments = .ok lettersNested ∧
      ∃ f, create "t" .path [.token letters, .literal "-", .token letters] = .ok f ∧
        (∀ x ∈ f.segments, x.isTemplate = false) ∧ ActAlike lettersNested f ∧
        ∀ fields o r, lettersNested.format fields o = r ↔ lettersNested.Formats fields o r := by
  have hcreate : create "t" .path lettersNested.segments = .ok lettersNested := rfl
  exact ⟨hcreate, create_flat hcreate⟩

end Template

end Stencil
