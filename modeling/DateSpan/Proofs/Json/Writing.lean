import DateSpan.Proofs.Json.Spelling
import DateSpan.Proofs.Text.Digits

/-!
# A value is told from its text

Different values have different texts, also where something comes after them, as long as it is what
may come after a value in an object:

    write_append_inj : j.write ++ rest = k.write ++ rest' → j = k ∧ rest = rest'

The first character tells what kind of value it is (`kind_eq_of_append`). Then a word has a fixed
length, a number ends with its digits, a string at its closing quote, and an object after its last
member.
-/

namespace DateSpan.Json

/-! ## Kinds of values -/

inductive Kind where
  | null
  | boolean
  | number
  | string
  | object
deriving DecidableEq

def kind : Json → Kind
  | null => .null
  | boolean _ => .boolean
  | number _ => .number
  | string _ => .string
  | object _ => .object

/-- The kind of the values that begin with a character. -/
def kindOf (c : Char) : Kind :=
  if c = 'n' then .null
  else if c = 't' ∨ c = 'f' then .boolean
  else if c = '"' then .string
  else if c = '\x7b' then .object
  else .number

theorem kindOf_of_isDigit {c : Char} (h : c.isDigit) : kindOf c = .number := by
  have hne {d : Char} (hd : d.isDigit = false) : c ≠ d := by
    rintro rfl
    rw [hd] at h
    cases h
  rw [kindOf, if_neg (hne rfl), if_neg (not_or.2 ⟨hne rfl, hne rfl⟩), if_neg (hne rfl),
    if_neg (hne rfl)]

theorem exists_write_eq (j : Json) : ∃ c cs, j.write = c :: cs ∧ kindOf c = j.kind := by
  cases j with
  | null => exact ⟨'n', _, rfl, rfl⟩
  | boolean b =>
    cases b with
    | true => exact ⟨'t', _, rfl, rfl⟩
    | false => exact ⟨'f', _, rfl, rfl⟩
  | number n =>
    rw [write, Numeral.signed]
    split
    · exact ⟨'-', _, rfl, rfl⟩
    · obtain ⟨c, cs, hcs⟩ : ∃ c cs, Numeral.digits n.natAbs = c :: cs :=
        List.exists_cons_of_ne_nil Nat.toDigits_ne_nil
      have hc : c.isDigit := Numeral.isDigit_of_mem_digits (hcs ▸ List.mem_cons_self)
      exact ⟨c, cs, hcs, kindOf_of_isDigit hc⟩
  | string s => exact ⟨'"', _, rfl, rfl⟩
  | object members => exact ⟨'\x7b', _, rfl, rfl⟩

theorem kind_eq_of_append {j k : Json} {rest rest' : List Char}
    (h : j.write ++ rest = k.write ++ rest') : j.kind = k.kind := by
  obtain ⟨c, cs, hj, hc⟩ := exists_write_eq j
  obtain ⟨d, ds, hk, hd⟩ := exists_write_eq k
  rw [hj, hk, List.cons_append, List.cons_append] at h
  rw [← hc, ← hd, (List.cons.inj h).1]

/-! ## Where a value ends -/

/-- What may come after a value: nothing, another member, or the end of the object. -/
def Ends (rest : List Char) : Prop := ∀ c ∈ rest.head?, c = ',' ∨ c = '\x7d'

theorem quote_append_inj {s t rest rest' : List Char} (h : quote s ++ rest = quote t ++ rest') :
    s = t ∧ rest = rest' := by
  have hs := spells_flatMap_escape s
  have ht := spells_flatMap_escape t
  rw [quote, quote, List.append_assoc, List.append_assoc] at h
  exact hs.unique ht (List.cons.inj h).2

theorem takeWhile_signed_append (n : Int) {rest : List Char} (h : Ends rest) :
    (Numeral.signed n ++ rest).takeWhile Numeral.isNumeral = Numeral.signed n := by
  have hrest : rest.takeWhile Numeral.isNumeral = [] := by
    rcases rest with _ | ⟨c, rest⟩
    · rfl
    · rcases h c rfl with rfl | rfl <;> rfl
  rw [List.takeWhile_append_of_pos fun c => Numeral.isNumeral_of_mem_signed, hrest, List.append_nil]

theorem signed_append_inj {m n : Int} {rest rest' : List Char} (hrest : Ends rest)
    (hrest' : Ends rest') (h : Numeral.signed m ++ rest = Numeral.signed n ++ rest') :
    m = n ∧ rest = rest' := by
  have hsigned := takeWhile_signed_append m hrest
  rw [h, takeWhile_signed_append n hrest'] at hsigned
  obtain rfl := Numeral.signed_injective hsigned
  exact ⟨rfl, List.append_cancel_left h⟩

/-! ## Values -/

/-- The members after the first one, with a comma before them. -/
def writeMore : List (List Char × Json) → List Char
  | [] => []
  | next :: more => ',' :: writeMembers (next :: more)

theorem writeMembers_cons (key : List Char) (value : Json) (more : List (List Char × Json)) :
    writeMembers ((key, value) :: more) = quote key ++ ':' :: (value.write ++ writeMore more) := by
  rcases more with _ | ⟨next, more⟩
  · rw [writeMembers, writeMore, List.append_nil]
  · rw [writeMembers, writeMore, List.append_assoc]
    rfl

theorem ends_writeMore (members : List (List Char × Json)) (rest : List Char) :
    Ends (writeMore members ++ '\x7d' :: rest) := by
  rcases members with _ | ⟨next, more⟩
  · rintro c ⟨⟩
    exact .inr rfl
  · rintro c ⟨⟩
    exact .inl rfl

mutual

/-- **A value is told from its text**, whatever comes after it. -/
theorem write_append_inj : (j k : Json) → {rest rest' : List Char} → Ends rest → Ends rest' →
    j.write ++ rest = k.write ++ rest' → j = k ∧ rest = rest'
  | null, k, rest, rest', _, _, h => by
    match k, kind_eq_of_append h with
    | null, _ => exact ⟨rfl, List.append_cancel_left h⟩
  | boolean b, k, rest, rest', _, _, h => by
    match k, kind_eq_of_append h with
    | boolean b', _ =>
      cases b <;> cases b'
      · exact ⟨rfl, List.append_cancel_left h⟩
      · cases h
      · cases h
      · exact ⟨rfl, List.append_cancel_left h⟩
  | number m, k, rest, rest', hrest, hrest', h => by
    match k, kind_eq_of_append h with
    | number n, _ =>
      obtain ⟨rfl, htail⟩ := signed_append_inj hrest hrest' h
      exact ⟨rfl, htail⟩
  | string s, k, rest, rest', _, _, h => by
    match k, kind_eq_of_append h with
    | string t, _ =>
      obtain ⟨rfl, htail⟩ := quote_append_inj h
      exact ⟨rfl, htail⟩
  | object members, k, rest, rest', _, _, h => by
    match k, kind_eq_of_append h with
    | object members', _ =>
      rw [write, write, List.append_assoc, List.append_assoc] at h
      obtain ⟨rfl, htail⟩ := writeMembers_append_inj members members' (List.cons.inj h).2
      exact ⟨rfl, htail⟩

theorem writeMembers_append_inj : (members members' : List (List Char × Json)) →
    {rest rest' : List Char} →
    writeMembers members ++ '\x7d' :: rest = writeMembers members' ++ '\x7d' :: rest' →
    members = members' ∧ rest = rest'
  | [], [], rest, rest', h => ⟨rfl, (List.cons.inj h).2⟩
  | [], (key, value) :: more, rest, rest', h => by
    rw [writeMembers_cons] at h
    cases h
  | (key, value) :: more, [], rest, rest', h => by
    rw [writeMembers_cons] at h
    cases h
  | (key, value) :: more, (key', value') :: more', rest, rest', h => by
    rw [writeMembers_cons, writeMembers_cons, List.append_assoc, List.append_assoc] at h
    obtain ⟨rfl, hvalue⟩ := quote_append_inj h
    rw [List.cons_append, List.cons_append, List.append_assoc, List.append_assoc] at hvalue
    obtain ⟨rfl, hmore⟩ := write_append_inj value value' (ends_writeMore more rest)
      (ends_writeMore more' rest') (List.cons.inj hvalue).2
    match more, more', hmore with
    | [], [], hmore => exact ⟨rfl, (List.cons.inj hmore).2⟩
    | next :: more, next' :: more', hmore =>
      obtain ⟨heq, htail⟩ := writeMembers_append_inj (next :: more) (next' :: more')
        (List.cons.inj hmore).2
      exact ⟨by rw [heq], htail⟩

end

theorem write_injective {j k : Json} (h : j.write = k.write) : j = k := by
  have hnil : Ends [] := by
    rintro c ⟨⟩
  refine (write_append_inj j k hnil hnil ?_).1
  rw [h]

end DateSpan.Json
