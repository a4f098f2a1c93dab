import TraceStore.Proofs.Json.Grammar

/-!
# The parser follows the grammar

A text is read as a value exactly if it spells that value. What is spelled is read, by induction on
the rules of the grammar, with as much fuel as there are characters. What is read was spelled, by
induction on the fuel.

* `parse_eq_some_iff`: the parser and the grammar agree.
-/
namespace TraceStore.Json

variable {fuel : Nat} {s rest : List Char}

-- The equations are made here once, and not by each of the proofs that rewrite with them.
attribute [local simp] value items members

/-! ### Blanks in front -/

theorem value_append {before : List Char} (h : Blank before) (fuel : Nat) (s : List Char) :
    value fuel (before ++ s) = value fuel s := by
  cases fuel with
  | zero => rfl
  | succ fuel => rw [value, value, skipBlanks_append h]

theorem value_skipBlanks (fuel : Nat) (s : List Char) :
    value fuel (skipBlanks s) = value fuel s := by
  obtain ⟨before, hbefore, hs⟩ := exists_skipBlanks s
  rw [← value_append hbefore, ← hs]

theorem items_skipBlanks (fuel : Nat) (s : List Char) :
    items fuel (skipBlanks s) = items fuel s := by
  cases fuel with
  | zero => rfl
  | succ fuel => rw [items, items, value_skipBlanks]

theorem members_append {before : List Char} (h : Blank before) (fuel : Nat) (s : List Char) :
    members fuel (before ++ s) = members fuel s := by
  cases fuel with
  | zero => rfl
  | succ fuel => rw [members, members, skipBlanks_append h]

theorem members_skipBlanks (fuel : Nat) (s : List Char) :
    members fuel (skipBlanks s) = members fuel s := by
  obtain ⟨before, hbefore, hs⟩ := exists_skipBlanks s
  rw [← members_append hbefore, ← hs]

/-! ### What is spelled is read -/

theorem value_number {n : JsonNumber} (h : Unsigned false n s) (hrest : Stops rest)
    (fuel : Nat) : value (fuel + 1) (s ++ rest) = some (number n, rest) := by
  obtain ⟨d, tail, rfl, hd⟩ := h.exists_cons
  have hread := unsignedNumber_append h hrest.ends
  have hblank : isBlank d = false := by
    rw [Bool.eq_false_iff, Ne, isBlank_iff]
    rintro (rfl | rfl | rfl | rfl) <;> simp at hd
  rw [List.cons_append] at hread ⊢
  rw [value, skipBlanks_of_head hblank]
  split
  case h_8 => rw [hread, Option.map_some]
  all_goals
    next heq =>
    obtain ⟨rfl, -⟩ := List.cons.inj heq
    simp at hd

theorem value_negative {n : JsonNumber} (h : Unsigned true n s) (hrest : Stops rest)
    (fuel : Nat) : value (fuel + 1) ('-' :: (s ++ rest)) = some (number n, rest) := by
  simp only [value, skipBlanks_of_head (rfl : isBlank '-' = false),
    unsignedNumber_append h hrest.ends, Option.map_some]

theorem value_string {text : Option String} (h : Literal text s) (rest : List Char) (fuel : Nat) :
    value (fuel + 1) (s ++ rest) = some (string text, rest) := by
  obtain ⟨body, rfl, hread⟩ := stringLiteral_append h rest
  simp only [List.cons_append, value, skipBlanks_of_head (rfl : isBlank '"' = false), hread,
    Option.map_some]

/-- No item starts with a closing bracket. -/
theorem items_close (fuel : Nat) (rest : List Char) : items fuel (']' :: rest) = none := by
  cases fuel with
  | zero => rfl
  | succ fuel =>
      rw [items]
      cases fuel <;> rfl

theorem members_close (fuel : Nat) (rest : List Char) : members fuel ('\x7d' :: rest) = none := by
  cases fuel <;> rfl

theorem value_array {list : List Json} (h : items fuel s = some (list, rest)) :
    value (fuel + 1) ('[' :: s) = some (array list, rest) := by
  rw [← items_skipBlanks] at h
  simp only [value, skipBlanks_of_head (rfl : isBlank '[' = false)]
  split
  · next hclose =>
    rw [hclose, items_close] at h
    exact absurd h (by simp)
  · rw [h, Option.map_some]

theorem value_object {list : List (Option String × Json)}
    (h : members fuel s = some (list, rest)) :
    value (fuel + 1) ('\x7b' :: s) = some (object list, rest) := by
  rw [← members_skipBlanks] at h
  simp only [value, skipBlanks_of_head (rfl : isBlank '\x7b' = false)]
  split
  · next hclose =>
    rw [hclose, members_close] at h
    exact absurd h (by simp)
  · rw [h, Option.map_some]

theorem value_emptyArray (h : Blank s) (fuel : Nat) (rest : List Char) :
    value (fuel + 1) ('[' :: (s ++ ']' :: rest)) = some (array [], rest) := by
  have hclose : skipBlanks (s ++ ']' :: rest) = ']' :: rest := skipBlanks_mark h rfl rest
  simp only [value, skipBlanks_of_head (rfl : isBlank '[' = false), hclose]

theorem value_emptyObject (h : Blank s) (fuel : Nat) (rest : List Char) :
    value (fuel + 1) ('\x7b' :: (s ++ '\x7d' :: rest)) = some (object [], rest) := by
  have hclose : skipBlanks (s ++ '\x7d' :: rest) = '\x7d' :: rest := skipBlanks_mark h rfl rest
  simp only [value, skipBlanks_of_head (rfl : isBlank '\x7b' = false), hclose]

theorem items_last {json : Json} {behind : List Char} (h : value fuel s = some (json, behind))
    (hclose : skipBlanks behind = ']' :: rest) : items (fuel + 1) s = some ([json], rest) := by
  rw [items, h, Option.bind_eq_bind, Option.bind_some]
  simp only [hclose]
  rfl

theorem items_cons {json : Json} {list : List Json} {behind next : List Char}
    (h : value fuel s = some (json, behind)) (hcomma : skipBlanks behind = ',' :: next)
    (hnext : items fuel next = some (list, rest)) :
    items (fuel + 1) s = some (json :: list, rest) := by
  rw [items, h, Option.bind_eq_bind, Option.bind_some]
  simp only [hcomma, hnext]
  rfl

section
variable {key : Option String} {json : Json} {name after behind : List Char}

theorem members_last (hname : Literal key name) (hafter : Blank after)
    (h : value fuel s = some (json, behind)) (hclose : skipBlanks behind = '\x7d' :: rest) :
    members (fuel + 1) (name ++ after ++ ':' :: s) = some ([(key, json)], rest) := by
  obtain ⟨body, rfl, hread⟩ := stringLiteral_append hname (after ++ ':' :: s)
  have hskip : skipBlanks (after ++ ':' :: s) = ':' :: s :=
    skipBlanks_mark hafter rfl s
  rw [List.append_assoc, List.cons_append, members, skipBlanks_of_head rfl]
  simp only [hread, Option.bind_eq_bind, Option.bind_some, hskip, h, hclose]
  rfl

theorem members_cons {list : List (Option String × Json)} {next : List Char}
    (hname : Literal key name) (hafter : Blank after) (h : value fuel s = some (json, behind))
    (hcomma : skipBlanks behind = ',' :: next) (hnext : members fuel next = some (list, rest)) :
    members (fuel + 1) (name ++ after ++ ':' :: s) = some ((key, json) :: list, rest) := by
  obtain ⟨body, rfl, hread⟩ := stringLiteral_append hname (after ++ ':' :: s)
  have hskip : skipBlanks (after ++ ':' :: s) = ':' :: s :=
    skipBlanks_mark hafter rfl s
  rw [List.append_assoc, List.cons_append, members, skipBlanks_of_head rfl]
  simp only [hread, Option.bind_eq_bind, Option.bind_some, hskip, h, hcomma, hnext]
  rfl

end

/-- How the parser goes through a phrase, with fuel for its characters. -/
def Phrase.IsRead : Phrase → List Char → Prop
  | .value json, s => ∀ fuel rest, s.length ≤ fuel → Stops rest →
      ∃ after, Blank after ∧ Json.value fuel (s ++ rest) = some (json, after ++ rest)
  | .items list, s => ∀ fuel rest, s.length < fuel →
      Json.items fuel (s ++ ']' :: rest) = some (list, rest)
  | .members list, s => ∀ fuel rest, s.length < fuel →
      Json.members fuel (s ++ '\x7d' :: rest) = some (list, rest)

/-- A value that is read at once, with nothing left behind it. -/
private theorem isRead_of_forall {json : Json} (hs : s ≠ [])
    (h : ∀ fuel rest, Stops rest → value (fuel + 1) (s ++ rest) = some (json, rest)) :
    (Phrase.value json).IsRead s := by
  intro fuel rest hfuel hrest
  obtain ⟨fuel, rfl⟩ := Nat.exists_eq_add_of_lt
    (Nat.lt_of_lt_of_le (List.length_pos_iff.2 hs) hfuel)
  rw [Nat.zero_add]
  exact ⟨[], blank_nil, h fuel rest hrest⟩

/-- What the grammar has, the parser reads. -/
theorem Spells.isRead {phrase : Phrase} (h : Spells phrase s) : phrase.IsRead s := by
  induction h with
  | null => exact isRead_of_forall (by simp) fun _ _ _ => rfl
  | true => exact isRead_of_forall (by simp) fun _ _ _ => rfl
  | false => exact isRead_of_forall (by simp) fun _ _ _ => rfl
  | number h =>
      obtain ⟨d, tail, hcons, -⟩ := h.exists_cons
      exact isRead_of_forall (by simp [hcons]) fun fuel _ hrest => value_number h hrest fuel
  | negative h => exact isRead_of_forall (by simp) fun fuel _ hrest => value_negative h hrest fuel
  | string h =>
      obtain ⟨body, hbody, -⟩ := stringLiteral_append h []
      exact isRead_of_forall (by simp [hbody]) fun fuel rest _ => value_string h rest fuel
  | emptyArray h =>
      refine isRead_of_forall (by simp) fun fuel rest _ => ?_
      rw [List.append_assoc]
      exact value_emptyArray h fuel rest
  | emptyObject h =>
      refine isRead_of_forall (by simp) fun fuel rest _ => ?_
      rw [List.append_assoc]
      exact value_emptyObject h fuel rest
  | array _ ih =>
      intro fuel rest hfuel _
      rw [List.length_append, List.length_cons, List.length_singleton] at hfuel
      obtain ⟨fuel, rfl⟩ : ∃ more, fuel = more + 1 := ⟨fuel - 1, by omega⟩
      rw [List.append_assoc]
      exact ⟨[], blank_nil, value_array (ih fuel rest (by omega))⟩
  | object _ ih =>
      intro fuel rest hfuel _
      rw [List.length_append, List.length_cons, List.length_singleton] at hfuel
      obtain ⟨fuel, rfl⟩ : ∃ more, fuel = more + 1 := ⟨fuel - 1, by omega⟩
      rw [List.append_assoc]
      exact ⟨[], blank_nil, value_object (ih fuel rest (by omega))⟩
  | @spaced json before s after hbefore _ hafter ih =>
      intro fuel rest hfuel hrest
      rw [List.length_append, List.length_append] at hfuel
      obtain ⟨behind, hbehind, hread⟩ := ih fuel (after ++ rest) (by omega) (hrest.append hafter)
      refine ⟨behind ++ after, hbehind.append hafter, ?_⟩
      rw [List.append_assoc, List.append_assoc, value_append hbefore, hread, List.append_assoc]
  | item _ ih =>
      intro fuel rest hfuel
      obtain ⟨fuel, rfl⟩ : ∃ more, fuel = more + 1 := ⟨fuel - 1, by omega⟩
      obtain ⟨after, hafter, hread⟩ := ih fuel (']' :: rest) (by omega) (stops_cons (by simp) rest)
      exact items_last hread (skipBlanks_mark hafter rfl rest)
  | @items json list s next _ _ ih ihnext =>
      intro fuel rest hfuel
      rw [List.length_append, List.length_cons] at hfuel
      obtain ⟨fuel, rfl⟩ : ∃ more, fuel = more + 1 := ⟨fuel - 1, by omega⟩
      obtain ⟨after, hafter, hread⟩ := ih fuel (',' :: (next ++ ']' :: rest)) (by omega)
        (stops_cons (by simp) _)
      rw [List.append_assoc, List.cons_append]
      exact items_cons hread (skipBlanks_mark hafter rfl _) (ihnext fuel rest (by omega))
  | @member key json before name after s hbefore hname hafter _ ih =>
      intro fuel rest hfuel
      simp only [List.length_append, List.length_cons] at hfuel
      obtain ⟨fuel, rfl⟩ : ∃ more, fuel = more + 1 := ⟨fuel - 1, by omega⟩
      obtain ⟨behind, hbehind, hread⟩ := ih fuel ('\x7d' :: rest) (by omega)
        (stops_cons (by simp) rest)
      have hlast := members_last hname hafter hread (skipBlanks_mark hbehind rfl rest)
      rw [← members_append hbefore] at hlast
      simpa only [List.append_assoc, List.cons_append] using hlast
  | @members key json list before name after s next hbefore hname hafter _ _ ih ihnext =>
      intro fuel rest hfuel
      simp only [List.length_append, List.length_cons] at hfuel
      obtain ⟨fuel, rfl⟩ : ∃ more, fuel = more + 1 := ⟨fuel - 1, by omega⟩
      obtain ⟨behind, hbehind, hread⟩ := ih fuel (',' :: (next ++ '\x7d' :: rest)) (by omega)
        (stops_cons (by simp) _)
      have hcons := members_cons hname hafter hread (skipBlanks_mark hbehind rfl _)
        (ihnext fuel rest (by omega))
      rw [← members_append hbefore] at hcons
      simpa only [List.append_assoc, List.cons_append] using hcons

/-! ### What is read is spelled -/

/-- What the parser has gone through, with what it leaves. -/
def Phrase.Explains (fuel : Nat) : Phrase → Prop
  | .value json => ∀ s rest, Json.value fuel s = some (json, rest) →
      ∃ body, Spells (.value json) body ∧ s = body ++ rest
  | .items list => ∀ s rest, Json.items fuel s = some (list, rest) →
      ∃ body, Spells (.items list) body ∧ s = body ++ ']' :: rest
  | .members list => ∀ s rest, Json.members fuel s = some (list, rest) →
      ∃ body, Spells (.members list) body ∧ s = body ++ '\x7d' :: rest

theorem spells_of_value (hitems : ∀ list, (Phrase.items list).Explains fuel)
    (hmembers : ∀ list, (Phrase.members list).Explains fuel) (json : Json) :
    (Phrase.value json).Explains (fuel + 1) := by
  intro s rest h
  obtain ⟨before, hbefore, hs⟩ := exists_skipBlanks s
  suffices h : ∃ body, Spells (.value json) body ∧ skipBlanks s = body ++ rest by
    obtain ⟨body, hbody, hskip⟩ := h
    refine ⟨before ++ body ++ [], .spaced hbefore hbody blank_nil, ?_⟩
    rw [List.append_nil, List.append_assoc, ← hskip, ← hs]
  rw [value] at h
  split at h
  · next heq =>
    obtain ⟨rfl, rfl⟩ := Prod.mk.inj (Option.some.inj h)
    exact ⟨_, .null, heq⟩
  · next heq =>
    obtain ⟨rfl, rfl⟩ := Prod.mk.inj (Option.some.inj h)
    exact ⟨_, .true, heq⟩
  · next heq =>
    obtain ⟨rfl, rfl⟩ := Prod.mk.inj (Option.some.inj h)
    exact ⟨_, .false, heq⟩
  · next heq =>
    obtain ⟨⟨text, behind⟩, hread, h⟩ := Option.map_eq_some_iff.1 h
    obtain ⟨rfl, rfl⟩ := Prod.mk.inj h
    obtain ⟨body, hbody, rfl⟩ := exists_of_stringLiteral hread
    exact ⟨_, .string hbody, heq⟩
  · next inside heq =>
    obtain ⟨blanks, hblanks, hinside⟩ := exists_skipBlanks inside
    split at h
    · next hclose =>
      obtain ⟨rfl, rfl⟩ := Prod.mk.inj (Option.some.inj h)
      rw [hclose] at hinside
      exact ⟨_, .emptyArray hblanks, by rw [heq, hinside, List.append_assoc]; rfl⟩
    · obtain ⟨⟨list, behind⟩, hread, h⟩ := Option.map_eq_some_iff.1 h
      obtain ⟨rfl, rfl⟩ := Prod.mk.inj h
      rw [items_skipBlanks] at hread
      obtain ⟨body, hbody, rfl⟩ := hitems list _ _ hread
      exact ⟨_, .array hbody, by rw [heq, List.append_assoc]; rfl⟩
  · next inside heq =>
    obtain ⟨blanks, hblanks, hinside⟩ := exists_skipBlanks inside
    split at h
    · next hclose =>
      obtain ⟨rfl, rfl⟩ := Prod.mk.inj (Option.some.inj h)
      rw [hclose] at hinside
      exact ⟨_, .emptyObject hblanks, by rw [heq, hinside, List.append_assoc]; rfl⟩
    · obtain ⟨⟨list, behind⟩, hread, h⟩ := Option.map_eq_some_iff.1 h
      obtain ⟨rfl, rfl⟩ := Prod.mk.inj h
      rw [members_skipBlanks] at hread
      obtain ⟨body, hbody, rfl⟩ := hmembers list _ _ hread
      exact ⟨_, .object hbody, by rw [heq, List.append_assoc]; rfl⟩
  · next heq =>
    obtain ⟨⟨n, behind⟩, hread, h⟩ := Option.map_eq_some_iff.1 h
    obtain ⟨rfl, rfl⟩ := Prod.mk.inj h
    obtain ⟨body, hbody, rfl⟩ := exists_of_unsignedNumber hread
    exact ⟨_, .negative hbody, heq⟩
  · obtain ⟨⟨n, behind⟩, hread, h⟩ := Option.map_eq_some_iff.1 h
    obtain ⟨rfl, rfl⟩ := Prod.mk.inj h
    obtain ⟨body, hbody, hskip⟩ := exists_of_unsignedNumber hread
    exact ⟨_, .number hbody, hskip⟩

theorem Spells.followed {json : Json} {after : List Char} (h : Spells (.value json) s)
    (hafter : Blank after) : Spells (.value json) (s ++ after) :=
  .spaced blank_nil h hafter

/-- A value with the blanks up to the mark behind it. -/
private theorem Spells.upTo {json : Json} {body behind next : List Char} {c : Char}
    (h : Spells (.value json) body) (hmark : skipBlanks behind = c :: next) :
    ∃ body', Spells (.value json) body' ∧ body ++ behind = body' ++ c :: next := by
  obtain ⟨after, hafter, hbehind⟩ := exists_skipBlanks behind
  exact ⟨body ++ after, h.followed hafter, by rw [List.append_assoc, ← hmark, ← hbehind]⟩

theorem spells_of_items (hvalue : ∀ json, (Phrase.value json).Explains fuel)
    (hitems : ∀ list, (Phrase.items list).Explains fuel) (list : List Json) :
    (Phrase.items list).Explains (fuel + 1) := by
  intro s rest h
  rw [items] at h
  obtain ⟨⟨json, behind⟩, hread, hbehind⟩ := Option.bind_eq_some_iff.1 h
  obtain ⟨body, hbody, rfl⟩ := hvalue json _ _ hread
  dsimp only at hbehind
  split at hbehind
  · next hclose =>
    obtain ⟨rfl, rfl⟩ := Prod.mk.inj (Option.some.inj hbehind)
    obtain ⟨body', hbody', heq⟩ := hbody.upTo hclose
    exact ⟨body', .item hbody', heq⟩
  · next hcomma =>
    obtain ⟨⟨others, rest'⟩, hnext, hlist⟩ := Option.bind_eq_some_iff.1 hbehind
    obtain ⟨rfl, rfl⟩ := Prod.mk.inj (Option.some.inj hlist)
    obtain ⟨text, htext, rfl⟩ := hitems others _ _ hnext
    obtain ⟨body', hbody', heq⟩ := hbody.upTo hcomma
    exact ⟨_, .items hbody' htext, by rw [heq, List.append_assoc]; rfl⟩
  · simp at hbehind

theorem spells_of_members (hvalue : ∀ json, (Phrase.value json).Explains fuel)
    (hmembers : ∀ list, (Phrase.members list).Explains fuel)
    (list : List (Option String × Json)) : (Phrase.members list).Explains (fuel + 1) := by
  intro s rest h
  obtain ⟨before, hbefore, hs⟩ := exists_skipBlanks s
  rw [members] at h
  split at h
  · next inside hquote =>
    obtain ⟨⟨key, behind⟩, hkey, hbehind⟩ := Option.bind_eq_some_iff.1 h
    obtain ⟨name, hname, rfl⟩ := exists_of_stringLiteral hkey
    obtain ⟨after, hafter, hgap⟩ := exists_skipBlanks behind
    dsimp only at hbehind
    split at hbehind
    · next inner hcolon =>
      obtain ⟨⟨json, behind'⟩, hread, hinner⟩ := Option.bind_eq_some_iff.1 hbehind
      obtain ⟨body, hbody, rfl⟩ := hvalue json _ _ hread
      rw [hs, hquote, hgap, hcolon]
      dsimp only at hinner
      split at hinner
      · next hclose =>
        obtain ⟨rfl, rfl⟩ := Prod.mk.inj (Option.some.inj hinner)
        obtain ⟨body', hbody', heq⟩ := hbody.upTo hclose
        refine ⟨_, .member hbefore hname hafter hbody', ?_⟩
        rw [heq]
        simp only [List.append_assoc, List.cons_append]
      · next hcomma =>
        obtain ⟨⟨others, rest'⟩, hnext, hlist⟩ := Option.bind_eq_some_iff.1 hinner
        obtain ⟨rfl, rfl⟩ := Prod.mk.inj (Option.some.inj hlist)
        obtain ⟨text, htext, rfl⟩ := hmembers others _ _ hnext
        obtain ⟨body', hbody', heq⟩ := hbody.upTo hcomma
        refine ⟨_, .members hbefore hname hafter hbody' htext, ?_⟩
        rw [heq]
        simp only [List.append_assoc, List.cons_append]
      · simp at hinner
    · simp at hbehind
  · simp at h

/-- Whatever the parser reads has the form that the grammar gives it. -/
theorem explains (fuel : Nat) (phrase : Phrase) : phrase.Explains fuel := by
  induction fuel generalizing phrase with
  | zero =>
      cases phrase with
      | value => exact fun _ _ h => absurd h (by simp [value])
      | items => exact fun _ _ h => absurd h (by simp [items])
      | members => exact fun _ _ h => absurd h (by simp [members])
  | succ fuel ih =>
      cases phrase with
      | value json => exact spells_of_value (fun list => ih _) (fun list => ih _) json
      | items list => exact spells_of_items (fun json => ih _) (fun list => ih _) list
      | members list => exact spells_of_members (fun json => ih _) (fun list => ih _) list

/-- A text is read as the value that it spells, and as no other; a text that spells none is not
read. -/
theorem parse_eq_some_iff {text : String} {json : Json} :
    parse text = some json ↔ json.SpelledBy text := by
  constructor
  · intro h
    rw [parse] at h
    split at h
    · next json' rest hread =>
      split at h
      · next hend =>
        obtain rfl := Option.some.inj h
        obtain ⟨body, hbody, htext⟩ := explains _ (.value json') _ _ hread
        obtain ⟨after, hafter, hrest⟩ := exists_skipBlanks rest
        rw [List.isEmpty_iff.1 hend, List.append_nil] at hrest
        rw [SpelledBy, htext, hrest]
        exact hbody.followed hafter
      · simp at h
    · simp at h
  · intro h
    obtain ⟨after, hafter, hread⟩ := h.isRead (2 * text.toList.length + 2) [] (by omega) stops_nil
    rw [List.append_nil] at hread
    simp only [parse, hread, skipBlanks_append hafter []]
    rfl

end TraceStore.Json
