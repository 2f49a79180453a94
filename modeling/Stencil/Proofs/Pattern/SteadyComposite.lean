import Stencil.Proofs.Pattern.Steady

/-!
# Reading composite expressions with more behind

The functions that read the parts of a composite expression are steady as well. A count in braces is
the one exception: text that is no count alone can become one with more behind it, but only if the
signs up to the end are digits, commas, blanks and comments (`Trailing`).
-/

namespace Stencil.Pattern.Composite

variable {f : Flags} {more : List Char}

/-! ## Blanks and comments -/

theorem comment_append {cs rest : List Char} (h : trim.comment cs = .ok rest) :
    trim.comment (cs ++ more) = .ok (rest ++ more) ∧ rest.length < cs.length := by
  fun_induction trim.comment cs with
  | case1 => cases h
  | case2 cs =>
    cases h
    exact ⟨rfl, by simp⟩
  | case3 d cs ih =>
    obtain ⟨ih, hlen⟩ := ih h
    refine ⟨?_, by simp; omega⟩
    rw [List.cons_append, List.cons_append, trim.comment]
    exact ih
  | case4 c cs hclose hescape ih =>
    obtain ⟨ih, hlen⟩ := ih h
    obtain ⟨d, cs, rfl⟩ : ∃ d ds, cs = d :: ds := by
      cases cs with
      | nil => cases h
      | cons d ds => exact ⟨d, ds, rfl⟩
    have hc : c ≠ '\\' := fun hc => hescape d cs hc rfl
    refine ⟨?_, by simp at hlen ⊢; omega⟩
    rw [← ih, List.cons_append, trim.comment]
    · exact hclose
    · exact fun _ _ h _ => hc h

/-- A comment in parentheses is dropped whatever stands behind. -/
theorem trim_comment_begin (n : Nat) (cs : List Char) :
    trim f (n + 1) ('(' :: '?' :: '#' :: cs) = trim.comment cs >>= trim f n := rfl

theorem trim_hash (n : Nat) (cs : List Char) :
    trim f (n + 1) ('#' :: cs) =
      if f.ignoreSpace then trim f n ((cs.dropWhile (· ≠ '\n')).drop 1) else .ok ('#' :: cs) := rfl

theorem trim_other (n : Nat) {c : Char} {cs : List Char}
    (hcomment : ∀ ds, c :: cs ≠ '(' :: '?' :: '#' :: ds) (hc : c ≠ '#') :
    trim f (n + 1) (c :: cs) =
      if f.ignoreSpace ∧ c ∈ [' ', '\r', '\n', '\t'] then trim f n cs else .ok (c :: cs) := by
  rw [trim]
  · exact fun ds h h' => hcomment ds (by rw [h, h'])
  · exact hc

theorem trim_stop (hmore : Stops more) (n : Nat) : trim f (n + 1) more = .ok more := by
  cases hmore with
  | parenthesis more => rw [trim_other n (by simp) (by decide), if_neg (by simp)]
  | dollar more => rw [trim_other n (by simp) (by decide), if_neg (by simp)]

/-- What begins no comment begins none with more behind it. -/
theorem not_comment_append (hmore : Stops more) {c : Char} {cs : List Char}
    (h : ∀ ds, c :: cs ≠ '(' :: '?' :: '#' :: ds) (ds : List Char) :
    c :: (cs ++ more) ≠ '(' :: '?' :: '#' :: ds := by
  intro heq
  match cs with
  | [] => cases hmore <;> simp at heq
  | [d] => cases hmore <;> simp at heq
  | d :: e :: cs =>
    simp only [List.cons_append, List.cons.injEq] at heq
    obtain ⟨rfl, rfl, rfl, -⟩ := heq
    exact h cs rfl

theorem trim_append (hmore : Stops more) {n m : Nat} {cs rest : List Char}
    (hn : cs.length < n) (hm : cs.length < m) (h : trim f n cs = .ok rest)
    (hrest : f.ignoreSpace = true → rest ≠ []) : trim f m (cs ++ more) = .ok (rest ++ more) := by
  induction n generalizing m cs with
  | zero => omega
  | succ n ih =>
    obtain ⟨m, rfl⟩ : ∃ k, m = k + 1 := ⟨m - 1, by omega⟩
    cases cs with
    | nil =>
      cases h
      exact trim_stop hmore m
    | cons c cs =>
      by_cases hcomment : ∃ ds, c :: cs = '(' :: '?' :: '#' :: ds
      · obtain ⟨ds, hds⟩ := hcomment
        rw [hds] at h hn hm ⊢
        rw [trim_comment_begin] at h
        obtain ⟨ds', hds', h⟩ := bind_eq_ok.1 h
        obtain ⟨hdrop, hlen⟩ := @comment_append more _ _ hds'
        simp only [List.length_cons] at hn hm
        exact bind_eq_ok.2 ⟨_, hdrop, ih (by omega) (by omega) h⟩
      have hother : ∀ ds, c :: cs ≠ '(' :: '?' :: '#' :: ds := fun ds hds => hcomment ⟨ds, hds⟩
      simp only [List.length_cons] at hn hm
      rw [List.cons_append]
      by_cases hc : c = '#'
      · subst hc
        rw [trim_hash] at h ⊢
        by_cases hf : f.ignoreSpace = true
        · rw [if_pos hf] at h ⊢
          have hne : cs.dropWhile (· ≠ '\n') ≠ [] := by
            intro hnil
            rw [hnil] at h
            cases n <;> cases h <;> exact hrest hf rfl
          obtain ⟨d, ds, hds⟩ := List.exists_cons_of_ne_nil hne
          have hlen := (List.dropWhile_sublist (p := (· ≠ '\n')) (l := cs)).length_le
          rw [hds] at h hlen
          rw [(takeWhile_append_of_dropWhile hds more).2]
          simp only [List.length_cons] at hlen
          have hds : ds.length < n ∧ ds.length < m := by omega
          exact ih hds.1 hds.2 h
        · rw [if_neg hf] at h ⊢
          cases h
          rfl
      · rw [trim_other n hother hc] at h
        rw [trim_other m (not_comment_append hmore hother) hc]
        by_cases hf : f.ignoreSpace = true ∧ c ∈ [' ', '\r', '\n', '\t']
        · rw [if_pos hf] at h ⊢
          exact ih (by omega) (by omega) h
        · rw [if_neg hf] at h ⊢
          cases h
          rfl

theorem skip_append (hmore : Stops more) {cs rest : List Char} (h : skip f cs = .ok rest)
    (hrest : f.ignoreSpace = true → rest ≠ []) : skip f (cs ++ more) = .ok (rest ++ more) :=
  trim_append hmore (Nat.lt_succ_self _) (by rw [List.length_append]; omega) h hrest

/-! ## Escape sequences and brackets -/

/-- Digits that can be taken are taken before the sign that stops them. -/
theorem takesHex_append (hmore : Stops more) (count : Nat) (cs : List Char) :
    (count ≤ (cs ++ more).length ∧
      ((cs ++ more).take count).all (fun c => (hexValue? c).isSome) = true) ↔
      count ≤ cs.length ∧ (cs.take count).all (fun c => (hexValue? c).isSome) = true := by
  obtain ⟨d, ds, rfl, hd⟩ : ∃ d ds, more = d :: ds ∧ (hexValue? d).isSome = false := by
    cases hmore with
    | parenthesis ds => exact ⟨')', ds, rfl, by decide⟩
    | dollar ds => exact ⟨'$', ds, rfl, by decide⟩
  by_cases hle : count ≤ cs.length
  · rw [List.take_append_of_le_length hle]
    simp [hle]
    omega
  · have hmem : d ∈ (cs ++ d :: ds).take count := by
      rw [List.take_append, List.mem_append]
      obtain ⟨k, hk⟩ : ∃ k, count - cs.length = k + 1 := ⟨count - cs.length - 1, by omega⟩
      rw [hk]
      simp
    refine iff_of_false (fun h => ?_) fun h => hle h.1
    have := List.all_eq_true.1 h.2 _ hmem
    rw [hd] at this
    cases this

theorem readHexDigits_append (hf : f.ignoreSpace = false) {count value n : Nat}
    {cs rest : List Char} (h : readHexDigits f count value cs = .ok (n, rest)) :
    readHexDigits f count value (cs ++ more) = .ok (n, rest ++ more) := by
  induction count generalizing value cs with
  | zero =>
    cases h
    rfl
  | succ count ih =>
    cases cs with
    | nil => cases h
    | cons c cs =>
      simp only [readHexDigits, List.cons_append, Flags.trim_of_not hf] at h ⊢
      cases hv : hexValue? c with
      | none => simp [hv] at h
      | some v =>
        simp only [hv] at h ⊢
        exact ih h

theorem dropWhile_of_readHexBrace {seen : Bool} {value n : Nat} {cs rest : List Char}
    (h : readHexBrace f seen value cs = .ok (n, rest)) : cs.dropWhile (· ≠ '}') = '}' :: rest := by
  induction cs generalizing seen value with
  | nil => cases h
  | cons c cs ih =>
    simp only [readHexBrace] at h
    by_cases hc : c = '}'
    · subst hc
      rw [if_pos rfl] at h
      split at h
      · cases h
        rfl
      · cases h
    · rw [if_neg hc] at h
      rw [List.dropWhile_cons_of_pos (by simpa using hc)]
      split at h
      · exact ih h
      · split at h
        · exact ih h
        · cases h

theorem readHex_append (hmore : Stops more) {count : Nat} {cs rest : List Char} {c : Char}
    (h : readHex count cs = .ok (c, rest)) :
    readHex count (cs ++ more) = .ok (c, rest ++ more) := by
  simp only [readHex] at h ⊢
  by_cases hdigits : count ≤ cs.length ∧ (cs.take count).all (fun c => (hexValue? c).isSome) = true
  · rw [if_pos hdigits] at h
    rw [if_pos ((takesHex_append hmore count cs).2 hdigits)]
    obtain ⟨⟨n, ds⟩, hn, h⟩ := bind_eq_ok.1 h
    obtain ⟨d, hd, h⟩ := bind_eq_ok.1 h
    cases h
    exact bind_eq_ok.2 ⟨_, readHexDigits_append rfl hn, bind_eq_ok.2 ⟨c, hd, rfl⟩⟩
  · rw [if_neg hdigits] at h
    rw [if_neg fun h => hdigits ((takesHex_append hmore count cs).1 h)]
    cases cs with
    | nil => cases h
    | cons e cs =>
      by_cases he : e = '{'
      · subst he
        simp only [List.cons_append] at h ⊢
        split at h
        · cases h
        · next hlen =>
          obtain ⟨⟨n, ds⟩, hn, h⟩ := bind_eq_ok.1 h
          obtain ⟨d, hd, h⟩ := bind_eq_ok.1 h
          cases h
          rw [(takeWhile_append_of_dropWhile (dropWhile_of_readHexBrace hn) more).1, if_neg hlen]
          exact bind_eq_ok.2 ⟨_, readHexBrace_append hn, bind_eq_ok.2 ⟨c, hd, rfl⟩⟩
      · split at h
        · next heq => exact absurd (List.cons.inj heq).1 he
        · cases h

/-- The letter of a class is all that is read of one. -/
theorem readEscape_class (f : Flags) {c : Char} (hc : c ∈ ['d', 's', 'w', 'D', 'S', 'W']) :
    ∃ x : Except Fault Atom, ∀ cs, Pattern.readEscape f (c :: cs) = x >>= fun a => .ok (a, cs) := by
  refine ⟨if c ∈ ['d', 's', 'w'] then .ok (.set (letterClass f c))
    else if f.wide then .ok (.set (.complement (letterClass f c.toLower)))
      else .error .notText, fun cs => ?_⟩
  simp only [List.mem_cons, List.not_mem_nil, or_false] at hc
  rcases hc with rfl | rfl | rfl | rfl | rfl | rfl <;> simp [Pattern.readEscape, Char.isDigit] <;>
    cases f.wide <;> rfl

/-- The letter of a property is followed by its name. -/
theorem readEscape_property (f : Flags) {c : Char} (hc : c = 'p' ∨ c = 'P') (cs : List Char) :
    Pattern.readEscape f (c :: cs) = readProperty f (c = 'P') cs := by
  rcases hc with rfl | rfl <;> simp [Pattern.readEscape, Char.isDigit]

/-- How an escape sequence is read behind its letter: as the name of a property, as a hexadecimal
number, or not at all, where the letter stands for something alone. -/
inductive ReadsEscape (f : Flags) (inBracket : Bool) : Char → List Char → Escaped → List Char → Prop
  | property {c : Char} {cs rest : List Char} {a : Atom} : c = 'p' ∨ c = 'P' →
    readProperty { f with ignoreSpace := false } (c = 'P') cs = .ok (a, rest) →
    ReadsEscape f inBracket c cs ⟨a, '\\' :: c :: cs.take (cs.length - rest.length)⟩ rest
  | hex {c d : Char} {cs rest : List Char} : c ∈ ['x', 'u', 'U'] →
    readHex (if c = 'x' then 2 else if c = 'u' then 4 else 8) cs = .ok (d, rest) →
    ReadsEscape f inBracket c cs ⟨.literal d, readEscape.quoteMeta d⟩ rest
  /-- Before a brace, the letter may be no sign. -/
  | letter {c : Char} {cs : List Char} {e : Escaped} :
    (∀ ds, (ds.head? = some '{' ↔ cs.head? = some '{') →
      readEscape f inBracket (c :: ds) = .ok (e, ds)) →
    ReadsEscape f inBracket c cs e cs

theorem readEscape_cons_eq_ok {inBracket : Bool} {c : Char} {cs rest : List Char} {e : Escaped} :
    readEscape f inBracket (c :: cs) = .ok (e, rest) ↔ ReadsEscape f inBracket c cs e rest := by
  constructor
  · intro h
    have halone : (∀ ds, (ds.head? = some '{' ↔ cs.head? = some '{') →
        readEscape f inBracket (c :: ds) = .ok (e, ds)) ∧ rest = cs →
        ReadsEscape f inBracket c cs e rest := by
      rintro ⟨hall, rfl⟩
      exact .letter hall
    simp only [readEscape] at h halone
    by_cases hdigit : c.isDigit = true
    · rw [if_pos hdigit] at h
      cases h
    rw [if_neg hdigit] at h
    by_cases hclass : c ∈ ['d', 's', 'w', 'D', 'S', 'W']
    · rw [if_pos hclass] at h
      obtain ⟨⟨a, ds⟩, ha, h⟩ := bind_eq_ok.1 h
      cases h
      obtain ⟨x, hx⟩ := readEscape_class f hclass
      rw [hx] at ha
      obtain ⟨b, rfl, hb⟩ := bind_eq_ok.1 ha
      cases hb
      refine halone ⟨fun ds _ => ?_, rfl⟩
      rw [if_neg hdigit, if_pos hclass, hx]
      rfl
    rw [if_neg hclass] at h
    by_cases hp : c = 'p' ∨ c = 'P'
    · rw [if_pos hp] at h
      obtain ⟨⟨a, ds⟩, ha, h⟩ := bind_eq_ok.1 h
      cases h
      rw [readEscape_property _ hp] at ha
      exact .property hp ha
    rw [if_neg hp] at h
    by_cases hx : c ∈ ['x', 'u', 'U']
    · rw [if_pos hx] at h
      obtain ⟨⟨d, ds⟩, hd, h⟩ := bind_eq_ok.1 h
      cases h
      exact .hex hx hd
    simp only [if_neg hdigit, if_neg hclass, if_neg hp, if_neg hx] at h halone
    -- What is left is read by its letter alone; only `b` and signs ask for more.
    refine halone ?_
    cases inBracket
    all_goals
      simp only [Bool.false_eq_true, if_true, if_false] at h ⊢
      split at h
      all_goals first | (cases h; done) | (cases h; exact ⟨fun _ _ => rfl, rfl⟩) | skip
    · split at h
      · cases h
      · next hc =>
        cases h
        exact ⟨fun ds hds => if_neg (mt hds.1 hc), rfl⟩
    all_goals
      split at h
      · cases h
      · next hc =>
        cases h
        exact ⟨fun ds _ => by split <;> simp_all, rfl⟩
  · intro h
    cases h with
    | property hp ha =>
      have hread := readEscape_property { f with ignoreSpace := false } hp cs
      rcases hp with rfl | rfl <;> exact bind_eq_ok.2 ⟨_, hread.trans ha, rfl⟩
    | hex hx hd =>
      simp only [List.mem_cons, List.not_mem_nil, or_false] at hx
      rcases hx with rfl | rfl | rfl <;> exact bind_eq_ok.2 ⟨_, hd, rfl⟩
    | letter hall => exact hall cs Iff.rfl

theorem readEscape_append (hmore : Stops more) (inBracket : Bool) {cs rest : List Char}
    {e : Escaped} (h : readEscape f inBracket cs = .ok (e, rest)) :
    readEscape f inBracket (cs ++ more) = .ok (e, rest ++ more) := by
  cases cs with
  | nil => cases h
  | cons c cs =>
    rw [List.cons_append, readEscape_cons_eq_ok]
    cases readEscape_cons_eq_ok.1 h with
    | property hp ha =>
      have hlen : (cs ++ more).length - (rest ++ more).length = cs.length - rest.length := by
        simp only [List.length_append]
        omega
      have htake : (cs ++ more).take (cs.length - rest.length) =
          cs.take (cs.length - rest.length) :=
        List.take_append_of_le_length (Nat.sub_le _ _)
      rw [← htake, ← hlen]
      exact .property hp (readProperty_append ha)
    | hex hx hd => exact .hex hx (readHex_append hmore hd)
    | letter hall =>
      refine .letter fun ds hds => hall ds (hds.trans ?_)
      cases hmore <;> cases rest <;> simp

theorem takeBracket_append (hmore : Stops more) {n m : Nat} (hm : n ≤ m) {depth : Nat}
    {taken taken' cs rest : List Char} (h : takeBracket f n depth taken cs = .ok (taken', rest)) :
    takeBracket f m depth taken (cs ++ more) = .ok (taken', rest ++ more) := by
  induction n generalizing m depth taken cs with
  | zero => cases h
  | succ n ih =>
    obtain ⟨m, rfl⟩ : ∃ k, m = k + 1 := ⟨m - 1, by omega⟩
    have hm : n ≤ m := by omega
    cases cs with
    | nil => cases h
    | cons c cs =>
      simp only [takeBracket, List.cons_append] at h ⊢
      by_cases hescape : c = '\\'
      · rw [if_pos hescape] at h ⊢
        cases he : readEscape f true cs with
        | error fault => simp [he] at h
        | ok r =>
          simp only [he] at h
          simp only [readEscape_append hmore true he]
          exact ih hm h
      rw [if_neg hescape] at h ⊢
      by_cases hopen : c = '['
      · rw [if_pos hopen] at h ⊢
        exact ih hm h
      rw [if_neg hopen] at h ⊢
      by_cases hclose : c = ']'
      · rw [if_pos hclose] at h ⊢
        by_cases hdepth : depth = 0
        · rw [if_pos hdepth] at h ⊢
          cases h
          rfl
        · rw [if_neg hdepth] at h ⊢
          exact ih hm h
      rw [if_neg hclose] at h ⊢
      exact ih hm h

theorem takeFront_append (hmore : Stops more) (cs : List Char) :
    takeFront (cs ++ more) = ((takeFront cs).1, (takeFront cs).2 ++ more) := by
  fun_cases takeFront cs with
  | case1 cs => rfl
  | case2 cs h =>
    cases cs with
    | nil => cases hmore <;> rfl
    | cons c cs =>
      have : c ≠ ']' := fun hc => h cs (by rw [hc])
      simp [takeFront, this]
  | case3 cs => rfl
  | case4 _ _ hcaret hbracket =>
    cases cs with
    | nil => cases hmore <;> rfl
    | cons c cs =>
      have hc : c ≠ '^' ∧ c ≠ ']' :=
        ⟨fun hc => hcaret cs (by rw [hc]), fun hc => hbracket cs (by rw [hc])⟩
      simp [takeFront, hc]

theorem readBracket_append (hmore : Stops more) {cs rest : List Char} {s : CharSet}
    (h : readBracket f cs = .ok (s, rest)) :
    readBracket f (cs ++ more) = .ok (s, rest ++ more) := by
  simp only [readBracket, takeFront_append hmore] at h ⊢
  obtain ⟨⟨taken, ds⟩, hd, h⟩ := bind_eq_ok.1 h
  obtain ⟨⟨s', es⟩, hs, h⟩ := bind_eq_ok.1 h
  refine bind_eq_ok.2 ⟨_, takeBracket_append hmore (by simp) hd, bind_eq_ok.2 ⟨_, hs, ?_⟩⟩
  cases es with
  | nil =>
    cases h
    rfl
  | cons e es => cases h

/-! ## Flags and repetitions -/

theorem readFlags_append {any on lastMinus : Bool} {cs rest : List Char} {g : Flags} {stop : Char}
    (h : readFlags f any on lastMinus cs = .ok (g, stop, rest)) :
    readFlags f any on lastMinus (cs ++ more) = .ok (g, stop, rest ++ more) := by
  induction cs generalizing f any on lastMinus with
  | nil => cases h
  | cons c cs ih =>
    have hend : ∀ {b : Prop} [Decidable b] {e : Fault},
        (if b then .error e else .ok (f, c, cs) : Except Fault _) = .ok (g, stop, rest) →
        (if b then .error e else .ok (f, c, cs ++ more) : Except Fault _) =
        .ok (g, stop, rest ++ more) := by
      intro b _ e h
      split at h
      · cases h
      · next hb =>
        cases h
        rw [if_neg hb]
    simp only [readFlags, List.cons_append] at h ⊢
    by_cases hclose : c = ')'
    · rw [if_pos hclose] at h ⊢
      exact hend h
    rw [if_neg hclose] at h ⊢
    by_cases hcolon : c = ':'
    · rw [if_pos hcolon] at h ⊢
      exact hend h
    rw [if_neg hcolon] at h ⊢
    by_cases hminus : c = '-'
    · rw [if_pos hminus] at h ⊢
      cases on with
      | true => exact ih h
      | false => cases h
    rw [if_neg hminus] at h ⊢
    by_cases hwide : c = 'u'
    · rw [if_pos hwide] at h ⊢
      cases on with
      | true => exact ih h
      | false => cases h
    rw [if_neg hwide] at h ⊢
    by_cases hreturns : c = 'R'
    · rw [if_pos hreturns] at h
      cases h
    rw [if_neg hreturns] at h ⊢
    cases hset : f.set? c on with
    | none => simp [hset] at h
    | some f' =>
      simp only [hset] at h ⊢
      exact ih h

theorem takeHold_append (hmore : Stops more) (p : Pattern) (cs : List Char) :
    takeHold p (cs ++ more) = ((takeHold p cs).1, (takeHold p cs).2 ++ more) := by
  fun_cases takeHold p cs with
  | case1 cs => rfl
  | case2 _ h =>
    cases cs with
    | nil => cases hmore <;> rfl
    | cons c cs =>
      have : c ≠ '+' := fun hc => h cs (by rw [hc])
      simp [takeHold, this]

/-! ## Groups -/

/-- Reads flags that are set behind the question mark of a group. -/
def readSetting (r : Reader) (cs : List Char) : Except Fault Reader := do
  let (flags, stop, rest) ← readFlags r.flags false true false cs
  if stop = ':' then r.openGroup none flags rest
  else
    return { r with
      flags, rest, contents := { r.contents with items := .part .empty true :: r.contents.items } }

/-- Reads the beginning of a group behind its parenthesis and all that is skipped there. -/
def readHead (r : Reader) : List Char → Except Fault Reader
  | '?' :: 'P' :: '<' :: rest => openNamed r rest
  | '?' :: 'P' :: '=' :: rest => readReference r rest
  | '?' :: '<' :: rest => openNamed r rest
  | '?' :: rest => readSetting r rest
  | cs => r.openCapture cs

theorem readGroup_eq (r : Reader) (cs : List Char) :
    readGroup r cs =
      if maxDepth ≤ r.opened.length + 1 then .error .tooManyGroups else skip r.flags cs >>=
        readHead r := by
  unfold readGroup
  split <;> rfl

/-- What a group is by its first signs, whatever the reader and whatever stands behind. -/
inductive Head (ds : List Char) : Prop
  | named (rest : List Char)
      (eq : ∀ more r, more = [] ∨ Stops more → readHead r (ds ++ more) = openNamed r (rest ++ more))
  | reference (rest : List Char)
      (eq : ∀ more r, more = [] ∨ Stops more →
        readHead r (ds ++ more) = readReference r (rest ++ more))
  | setting (rest : List Char)
      (eq : ∀ more r, more = [] ∨ Stops more →
        readHead r (ds ++ more) = readSetting r (rest ++ more))
  | capture (eq : ∀ more r, more = [] ∨ Stops more →
      readHead r (ds ++ more) = r.openCapture (ds ++ more))

theorem cons_of_append_of_ne {c : Char} {tail : List Char} (hc : ∀ ds, more ≠ c :: ds)
    {cs : List Char} (h : cs ++ more = c :: tail) : ∃ cs', cs = c :: cs' ∧ cs' ++ more = tail := by
  cases cs with
  | nil => exact absurd h (hc tail)
  | cons d cs =>
    obtain ⟨rfl, htail⟩ := List.cons.inj h
    exact ⟨cs, rfl, htail⟩

/-- How a group begins is settled by its own signs. -/
theorem head_cases (ds : List Char) : Head ds := by
  have hne : ∀ {more : List Char} {c : Char}, (more = [] ∨ Stops more) → c ≠ ')' ∧ c ≠ '$' →
      ∀ ds, more ≠ c :: ds := by
    rintro more c (rfl | h) hc ds heq
    · cases heq
    · cases h <;> cases heq <;> simp at hc
  fun_cases readHead (.start []) ds with
  | case1 rest => exact .named rest fun _ _ _ => rfl
  | case2 rest => exact .reference rest fun _ _ _ => rfl
  | case3 rest => exact .named rest fun _ _ _ => rfl
  | case4 rest hnamed hreference hangle =>
    refine .setting rest fun more r hmore => ?_
    have hpair : ∀ {d : Char} {tail : List Char}, d ≠ ')' ∧ d ≠ '$' →
        rest ++ more = 'P' :: d :: tail → ∃ rest', rest = 'P' :: d :: rest' := by
      intro d tail hd heq
      obtain ⟨cs, rfl, hcs⟩ := cons_of_append_of_ne (hne hmore (by decide)) heq
      obtain ⟨rest', rfl, -⟩ := cons_of_append_of_ne (hne hmore hd) hcs
      exact ⟨rest', rfl⟩
    rw [List.cons_append, readHead]
    · intro tail heq
      obtain ⟨rest', hrest⟩ := hpair (by decide) heq
      exact hnamed rest' hrest
    · intro tail heq
      obtain ⟨rest', hrest⟩ := hpair (by decide) heq
      exact hreference rest' hrest
    · intro tail heq
      obtain ⟨rest', hrest, -⟩ := cons_of_append_of_ne (hne hmore (by decide)) heq
      exact hangle rest' hrest
  | case5 ds hnamed hreference hangle hquestion =>
    refine .capture fun more r hmore => ?_
    have hhead : ∀ tail, ds ++ more ≠ '?' :: tail := by
      intro tail heq
      obtain ⟨ds', hds, -⟩ := cons_of_append_of_ne (hne hmore (by decide)) heq
      exact hquestion ds' hds
    rw [readHead]
    all_goals exact fun tail heq => hhead _ heq

/-! ## Counts -/

/-- Up to the end of a text stand only digits, commas, blanks and comments, and the last of them are
skipped by the flags or are no whole comment. -/
inductive Trailing (f : Flags) : List Char → Prop
  | skipped {cs : List Char} (h : ∀ rest, skip f cs = .ok rest → f.ignoreSpace = true ∧ rest = []) :
    Trailing f cs
  | sign {cs rest : List Char} {c : Char} (h : skip f cs = .ok (c :: rest))
      (hc : c.isDigit = true ∨ c = ',')
    (ht : Trailing f rest) : Trailing f cs

/-- There is nothing to drop any more. -/
theorem trim_trim {n : Nat} {cs rest : List Char} (hn : cs.length < n)
    (h : trim f n cs = .ok rest) (m : Nat) : trim f (m + 1) rest = .ok rest := by
  induction n generalizing cs with
  | zero => omega
  | succ n ih =>
    cases cs with
    | nil =>
      cases h
      rfl
    | cons c cs =>
      simp only [List.length_cons] at hn
      by_cases hcomment : ∃ ds, c :: cs = '(' :: '?' :: '#' :: ds
      · obtain ⟨ds, hds⟩ := hcomment
        rw [hds, trim_comment_begin] at h
        obtain ⟨ds', hds', h⟩ := bind_eq_ok.1 h
        have hlen := (@comment_append [] _ _ hds').2
        have := congrArg List.length hds
        simp only [List.length_cons] at this
        exact ih (by omega) h
      have hother : ∀ ds, c :: cs ≠ '(' :: '?' :: '#' :: ds := fun ds hds => hcomment ⟨ds, hds⟩
      by_cases hc : c = '#'
      · subst hc
        rw [trim_hash] at h
        split at h
        · have hlen := (List.dropWhile_sublist (p := (· ≠ '\n')) (l := cs)).length_le
          exact ih (by simp only [List.length_drop]; omega) h
        · next hf =>
          cases h
          rw [trim_hash, if_neg hf]
      · rw [trim_other n hother hc] at h
        split at h
        · exact ih (by omega) h
        · next hf =>
          cases h
          rw [trim_other m hother hc, if_neg hf]

theorem skip_skip {cs rest : List Char} (h : skip f cs = .ok rest) : skip f rest = .ok rest :=
  trim_trim (Nat.lt_succ_self _) h rest.length

namespace Trailing

variable {cs rest : List Char}

theorem skip_iff (h : skip f cs = .ok rest) : Trailing f cs ↔ Trailing f rest := by
  have hrest := skip_skip h
  constructor
  all_goals
    intro ht
    cases ht with
    | skipped ht => exact skipped fun rest' h' => ht rest' (by rw [← h', h, hrest])
    | sign hs hc ht => exact sign (by rw [← hs, h, hrest]) hc ht

/-- Nothing is dropped before a digit. -/
theorem skip_digit {c : Char} (hc : c.isDigit = true) (cs : List Char) :
    skip f (c :: cs) = .ok (c :: cs) := by
  have hne : c ≠ '(' ∧ c ≠ '#' ∧ c ∉ [' ', '\r', '\n', '\t'] := by
    refine ⟨?_, ?_, ?_⟩
    · rintro rfl
      revert hc
      decide
    · rintro rfl
      revert hc
      decide
    · intro hmem
      simp only [List.mem_cons, List.not_mem_nil, or_false] at hmem
      rcases hmem with rfl | rfl | rfl | rfl <;> revert hc <;> decide
  rw [skip, List.length_cons, trim_other _ (by simp [hne.1]) hne.2.1, if_neg (by simp [hne.2.2])]

theorem digits_iff : Trailing f (cs.dropWhile Char.isDigit) ↔ Trailing f cs := by
  induction cs with
  | nil => rfl
  | cons c cs ih =>
    by_cases hc : c.isDigit = true
    · rw [List.dropWhile_cons_of_pos hc, ih]
      constructor
      · exact sign (skip_digit hc cs) (.inl hc)
      · intro ht
        cases ht with
        | skipped ht => exact absurd (ht _ (skip_digit hc cs)).2 (by simp)
        | sign hs _ ht =>
          rw [skip_digit hc cs] at hs
          cases hs
          exact ht
    · rw [List.dropWhile_cons_of_neg hc]

/-- What is trailing does not go on to another sign. -/
theorem of_cons {c : Char} (h : skip f cs = .ok (c :: rest)) (ht : Trailing f cs) :
    (c.isDigit = true ∨ c = ',') ∧ Trailing f rest := by
  cases ht with
  | skipped ht => exact absurd (ht _ h).2 (by simp)
  | sign hs hc ht =>
    rw [h] at hs
    cases hs
    exact ⟨hc, ht⟩

/-- Where not all is trailing, skipping gets somewhere. -/
theorem skip_eq (hmore : Stops more) (ht : ¬ Trailing f cs) :
    ∃ rest, skip f cs = .ok rest ∧ skip f (cs ++ more) = .ok (rest ++ more) ∧
      ¬ Trailing f rest := by
  obtain ⟨rest, hrest, hne⟩ : ∃ rest, skip f cs = .ok rest ∧
      ¬ (f.ignoreSpace = true ∧ rest = []) := by
    by_contra h
    exact ht (skipped fun rest hrest => by_contra fun hne => h ⟨rest, hrest, hne⟩)
  exact ⟨rest, hrest, skip_append hmore hrest fun hf hnil => hne ⟨hf, hnil⟩,
    fun h => ht ((skip_iff hrest).2 h)⟩

end Trailing

theorem digits_append (hmore : Stops more) (cs : List Char) :
    (cs ++ more).takeWhile Char.isDigit = cs.takeWhile Char.isDigit ∧
      (cs ++ more).dropWhile Char.isDigit = cs.dropWhile Char.isDigit ++ more := by
  cases hmore with
  | parenthesis more => exact takeWhile_append_stop (by decide) _ _
  | dollar more => exact takeWhile_append_stop (by decide) _ _

theorem number?_append (hmore : Stops more) (cs : List Char) :
    number? (cs ++ more) = number? cs := by
  simp only [number?, (digits_append hmore cs).1]

theorem dropDigits_append (hmore : Stops more) (cs : List Char) :
    (cs ++ more).dropWhile Char.isDigit = cs.dropWhile Char.isDigit ++ more :=
  (digits_append hmore cs).2

theorem readMin?_append (hmore : Stops more) {cs : List Char} (ht : ¬ Trailing f cs) :
    readMin? f (cs ++ more) = (readMin? f cs).map (fun r => (r.1, r.2 ++ more)) ∧
      ∀ r ∈ readMin? f cs, ¬ Trailing f r.2 := by
  obtain ⟨rest, hrest, hmore', ht'⟩ := Trailing.skip_eq hmore ht
  have hhead : (rest ++ more).head? = some ',' ↔ rest.head? = some ',' := by
    cases hmore <;> cases rest <;> simp
  simp only [readMin?, hrest, hmore', Except.toOption, Option.bind_eq_bind, Option.bind_some, hhead,
    number?_append hmore, dropDigits_append hmore]
  by_cases hcomma : rest.head? = some ','
  · simp [hcomma, ht']
  · simp only [if_neg hcomma, Option.map_map]
    refine ⟨rfl, fun r hr => ?_⟩
    obtain ⟨n, -, rfl⟩ := Option.map_eq_some_iff.1 hr
    exact fun h => ht' (Trailing.digits_iff.1 h)

theorem readMax?_append (hmore : Stops more) {cs : List Char} (ht : ¬ Trailing f cs) :
    readMax? f (cs ++ more) = (readMax? f cs).map fun r => (r.1, r.2 ++ more) := by
  obtain ⟨rest, hrest, hmore', ht'⟩ := Trailing.skip_eq hmore ht
  have hdrop :
      (if (number? rest).isSome then (rest ++ more).dropWhile Char.isDigit else rest ++ more) =
        (if (number? rest).isSome then rest.dropWhile Char.isDigit else rest) ++ more := by
    rw [dropDigits_append hmore]
    split <;> rfl
  have htail :
      ¬ Trailing f (if (number? rest).isSome then rest.dropWhile Char.isDigit else rest) := by
    split
    · exact fun h => ht' (Trailing.digits_iff.1 h)
    · exact ht'
  obtain ⟨tail, htail, htail', -⟩ := Trailing.skip_eq hmore htail
  simp only [readMax?, hrest, hmore', Except.toOption, Option.bind_eq_bind, Option.bind_some, hdrop,
    htail, htail', number?_append hmore]
  cases tail with
  | nil =>
    cases hmore <;> simp
  | cons c tail =>
    by_cases hc : c = '\x7d'
    · subst hc
      rfl
    · simp [hc]

/-- Text is a count with more behind it if it is one alone. -/
theorem readCount?_append (hmore : Stops more) {cs : List Char} (ht : ¬ Trailing f cs) :
    readCount? f (cs ++ more) = (readCount? f cs).map fun r => (r.1, r.2.1, r.2.2 ++ more) := by
  obtain ⟨hmin, htmin⟩ := readMin?_append hmore ht
  simp only [readCount?, hmin]
  cases h : readMin? f cs with
  | none => rfl
  | some r =>
    obtain ⟨tail, htail, htail', ht'⟩ := Trailing.skip_eq hmore (htmin r h)
    simp only [Option.map_some, Option.bind_eq_bind, Option.bind_some, htail, htail',
      Except.toOption]
    cases tail with
    | nil =>
      cases hmore <;> simp
    | cons c tail =>
      by_cases hbrace : c = '\x7d'
      · subst hbrace
        rfl
      by_cases hcomma : c = ','
      · subst hcomma
        have : ¬ Trailing f tail := fun h => ht' (.sign (skip_skip htail) (.inr rfl) h)
        simp [readMax?_append hmore this, Function.comp_def]
      · simp [hbrace, hcomma]

namespace Trailing

variable {cs rest : List Char}

theorem skip_of_toOption (h : (skip f cs).toOption = some rest) : skip f cs = .ok rest := by
  cases hs : skip f cs with
  | error e => simp [hs, Except.toOption] at h
  | ok r =>
    rw [hs] at h
    cases h
    rfl

/-- A brace does not trail. -/
theorem not_brace (h : (skip f cs).toOption = some ('\x7d' :: rest)) : ¬ Trailing f cs := fun ht =>
  absurd (of_cons (skip_of_toOption h) ht).1 (by decide)

theorem of_readMin? {n : Nat} (ht : Trailing f cs) (h : readMin? f cs = some (n, rest)) :
    Trailing f rest := by
  simp only [readMin?, Option.bind_eq_bind, Option.bind_eq_some_iff] at h
  obtain ⟨ds, hds, h⟩ := h
  have ht' := (skip_iff (skip_of_toOption hds)).1 ht
  split at h
  · cases h
    exact ht'
  · obtain ⟨n, -, heq⟩ := Option.map_eq_some_iff.1 h
    cases heq
    exact digits_iff.2 ht'

theorem not_readMax? {max : Option Nat} (h : readMax? f cs = some (max, rest)) :
    ¬ Trailing f cs := by
  intro ht
  simp only [readMax?, Option.bind_eq_bind, Option.bind_eq_some_iff] at h
  obtain ⟨ds, hds, es, hes, h⟩ := h
  have ht' := (skip_iff (skip_of_toOption hds)).1 ht
  split at h
  · refine not_brace hes ?_
    split
    · exact digits_iff.2 ht'
    · exact ht'
  · cases h

/-- A count is none of the signs up to the end of a text. -/
theorem not_readCount? {min : Nat} {max : Option Nat}
    (h : readCount? f cs = some (min, max, rest)) : ¬ Trailing f cs := by
  intro ht
  simp only [readCount?, Option.bind_eq_bind, Option.bind_eq_some_iff] at h
  obtain ⟨⟨n, ds⟩, hds, es, hes, h⟩ := h
  have ht' := ht.of_readMin? hds
  split at h
  · exact not_brace hes ht'
  · obtain ⟨r, hr, -⟩ := Option.map_eq_some_iff.1 h
    exact not_readMax? hr (of_cons (skip_of_toOption hes) ht').2
  · cases h

end Trailing

end Stencil.Pattern.Composite
