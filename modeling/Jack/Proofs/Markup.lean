import Jack.Proofs.Derivation

/-!
# Reading a token listing back

A listing determines the lexemes of the tokens it was made from, whatever their texts. A text may
look like a tag or an entity and may hold line ends, so borders can be found by one thing only: the
sign that opens a tag stands nowhere else, because it is written as an entity in texts
(`lt_notMem_entities`). Cut at these signs, a listing has two fields for each token, one with its
element and its text, one with the end of the element (`splitOn_listing`). In a text every ampersand
starts an entity, so the entities are undone without a doubt (`unescaped_entities`).

`Token.unlist` does both without knowing the tokens.
-/

namespace Jack.Token

/-! ## Entities -/

/-- Puts characters in place of the entities of a text. -/
def unescaped : List Char → List Char
  | '&' :: 'l' :: 't' :: ';' :: cs => '<' :: unescaped cs
  | '&' :: 'g' :: 't' :: ';' :: cs => '>' :: unescaped cs
  | '&' :: 'q' :: 'u' :: 'o' :: 't' :: ';' :: cs => '"' :: unescaped cs
  | '&' :: 'a' :: 'm' :: 'p' :: ';' :: cs => '&' :: unescaped cs
  | c :: cs => c :: unescaped cs
  | [] => []

theorem unescaped_cons {c : Char} (hc : c ≠ '&') (cs : List Char) :
    unescaped (c :: cs) = c :: unescaped cs := by
  rw [unescaped] <;> simp [hc]

/-- An entity stands for the character that it was written for. -/
theorem unescaped_entity (c : Char) (cs : List Char) :
    unescaped (entity c ++ cs) = c :: unescaped cs := by
  unfold entity
  split
  · next hc => rw [hc]; rfl
  · split
    · next hc => rw [hc]; rfl
    · split
      · next hc => rw [hc]; rfl
      · split
        · next hc => rw [hc]; rfl
        · next hc => exact unescaped_cons hc cs

theorem unescaped_entities (cs : List Char) : unescaped (cs.flatMap entity) = cs := by
  induction cs with
  | nil => rfl
  | cons c cs ih => rw [List.flatMap_cons, unescaped_entity, ih]

theorem lt_notMem_entity (c : Char) : '<' ∉ entity c := by
  unfold entity
  split
  · decide
  · next hc =>
      split
      · decide
      · split
        · decide
        · split
          · decide
          · simpa using Ne.symm hc

theorem lt_notMem_entities (cs : List Char) : '<' ∉ cs.flatMap entity := by
  intro hmem
  obtain ⟨c, -, hc⟩ := List.mem_flatMap.mp hmem
  exact lt_notMem_entity c hc

/-! ## Fields of a listing -/

/-- The field behind the sign that opens the element of a token. -/
def openingField (t : Token) : List Char :=
  t.kind.tag.toList ++ '>' :: ' ' :: (t.text.toList.flatMap entity ++ [' '])

/-- The field behind the sign that opens the end of the element. -/
def closingField (t : Token) : List Char :=
  '/' :: (t.kind.tag.toList ++ ['>', '\n'])

theorem toList_markup (t : Token) :
    t.markup.toList ++ ['\n'] = '<' :: (t.openingField ++ '<' :: t.closingField) := by
  have hmarkup : t.markup =
      "<" ++ t.kind.tag ++ "> " ++ escaped t.text ++ " </" ++ t.kind.tag ++ ">" := rfl
  rw [hmarkup]
  simp [escaped, openingField, closingField]

/-- In front of the end of a listing, every token has its two fields. -/
theorem splitOn_elements (ts : List Token) {before ending : List Char} (hbefore : '<' ∉ before)
    (hending : '<' ∉ ending) :
    (before ++ (ts.flatMap fun t => t.markup.toList ++ ['\n']) ++ '<' :: ending).splitOn '<' =
      before :: (ts.flatMap fun t => [t.openingField, t.closingField]) ++ [ending] := by
  have htag : ∀ k : Kind, '<' ∉ k.tag.toList := by
    intro k
    cases k <;> decide
  induction ts generalizing before with
  | nil =>
      rw [List.flatMap_nil, List.append_nil, List.splitOn_append_cons_self_of_not_mem hbefore,
        List.splitOn_eq_singleton hending]
      rfl
  | cons t ts ih =>
      have hopening : '<' ∉ t.openingField := by
        have htext := lt_notMem_entities t.text.toList
        simp only [openingField, List.mem_append, List.mem_cons, htag, htext]
        decide
      have hclosing : '<' ∉ t.closingField := by
        simp [closingField, htag]
      have hrest := ih hclosing
      rw [List.flatMap_cons, toList_markup]
      simp only [List.append_assoc, List.cons_append] at hrest ⊢
      rw [List.splitOn_append_cons_self_of_not_mem hbefore,
        List.splitOn_append_cons_self_of_not_mem hopening, hrest]
      rfl

theorem toList_listing (ts : List Token) :
    (listing ts).toList =
      '<' :: ("tokens>\n".toList ++ (ts.flatMap fun t => t.markup.toList ++ ['\n']) ++
        '<' :: "/tokens>".toList) := by
  have hlines : ∀ us : List Token,
      (String.intercalate "\n" (us.map markup ++ ["</tokens>"])).toList =
        (us.flatMap fun t => t.markup.toList ++ ['\n']) ++ "</tokens>".toList := by
    intro us
    induction us with
    | nil => simp
    | cons u us ih =>
        rw [List.map_cons, List.cons_append, String.intercalate_cons_of_ne_nil (by simp),
          String.toList_append, String.toList_append, ih]
        simp
  rw [listing, List.cons_append, String.intercalate_cons_of_ne_nil (by simp)]
  simp [hlines]

theorem splitOn_listing (ts : List Token) :
    (listing ts).toList.splitOn '<' =
      [] :: "tokens>\n".toList :: (ts.flatMap fun t => [t.openingField, t.closingField]) ++
        ["/tokens>".toList] := by
  have hstart : '<' ∉ "tokens>\n".toList := by decide
  have hend : '<' ∉ "/tokens>".toList := by decide
  rw [toList_listing, List.splitOn_cons_eq_if_modifyHead, if_pos (by rfl),
    splitOn_elements ts hstart hend]
  rfl

/-! ## Reading -/

/-- The lexeme of an element, from the field with its name and its text. -/
def elementOf? (field : List Char) : Option Lexeme :=
  let text := ((field.dropWhile (· != '>')).drop 2).dropLast
  (Kind.ofTag? (String.ofList (field.takeWhile (· != '>')))).map fun kind =>
    ⟨kind, String.ofList (unescaped text)⟩

/-- The lexemes of the elements in front of the end of a listing, which has one field only. -/
def elementsOf? : List (List Char) → Option (List Lexeme)
  | opening :: _ :: fields => do
    let l ← elementOf? opening
    let ls ← elementsOf? fields
    return l :: ls
  | _ => some []

/-- The lexemes that a listing is made of. -/
def unlist (text : String) : Option (List Lexeme) :=
  elementsOf? ((text.toList.splitOn '<').drop 2)

theorem elementOf?_openingField (t : Token) : elementOf? t.openingField = some t.lexeme := by
  have htag : ∀ c ∈ t.kind.tag.toList, (c != '>') = true := by
    refine List.all_eq_true.mp ?_
    cases t.kind <;> decide
  simp only [elementOf?, openingField, List.takeWhile_append_of_pos htag,
    List.dropWhile_append_of_pos htag]
  simp [Kind.ofTag?_tag, unescaped_entities, lexeme]

theorem elementsOf?_fields (ts : List Token) (ending : List Char) :
    elementsOf? ((ts.flatMap fun t => [t.openingField, t.closingField]) ++ [ending]) =
      some (ts.map lexeme) := by
  induction ts with
  | nil => rfl
  | cons t ts ih =>
      simp [elementsOf?, elementOf?_openingField, ih]

/-- Where the tokens stand is not listed. -/
theorem listing_eq_of_lexemes {ts us : List Token} (h : ts.map lexeme = us.map lexeme) :
    listing ts = listing us := by
  have hmarkup : ∀ vs : List Token, vs.map markup = (vs.map lexeme).map Lexeme.markup := by
    intro vs
    rw [List.map_map]
    rfl
  rw [listing, listing, hmarkup, hmarkup, h]

/-- A listing is read back as the kinds and texts of its tokens, whatever these are. So two lists of
tokens have the same listing only if they agree token by token. -/
theorem unlist_listing (ts : List Token) :
    unlist (listing ts) = some (ts.map lexeme) ∧
      ∀ us, listing ts = listing us ↔ ts.map lexeme = us.map lexeme := by
  have hread : ∀ us, unlist (listing us) = some (us.map lexeme) := by
    intro us
    rw [unlist, splitOn_listing]
    exact elementsOf?_fields us _
  refine ⟨hread ts, fun us => ⟨fun h => ?_, listing_eq_of_lexemes⟩⟩
  have hlexemes := hread ts
  rw [h, hread us] at hlexemes
  exact (Option.some.inj hlexemes).symm

/-- A text that looks like the end of the listing, with an entity and a line end in it. -/
example :
    unlist (listing [⟨.string, " </tokens>\n&lt; ", ⟨"Main.jack", 1, 1⟩⟩]) =
      some [⟨.string, " </tokens>\n&lt; "⟩] := by
  decide +kernel

end Jack.Token
