/-!
# White space

The characters with the Unicode property `White_Space`, and trimming a text of
them at both ends.
-/

namespace DateSpan.Blank

/-- The code points of the property, as closed intervals. -/
def intervals : List (Nat × Nat) :=
  [(0x09, 0x0D), (0x20, 0x20), (0x85, 0x85), (0xA0, 0xA0), (0x1680, 0x1680), (0x2000, 0x200A),
    (0x2028, 0x2029), (0x202F, 0x202F), (0x205F, 0x205F), (0x3000, 0x3000)]

def isBlank (c : Char) : Bool := intervals.any fun (first, last) => first ≤ c.toNat && c.toNat ≤ last

def trimStart (cs : List Char) : List Char := cs.dropWhile isBlank

def trimEnd (cs : List Char) : List Char := (trimStart cs.reverse).reverse

def trim (cs : List Char) : List Char := trimEnd (trimStart cs)

/-- The property covers 25 characters. -/
example : (intervals.map fun (first, last) => last + 1 - first).sum = 25 := by decide

theorem trim_of_not_isBlank {cs : List Char} (h : ∀ c ∈ cs, isBlank c = false) : trim cs = cs := by
  have hstart {ds : List Char} (hds : ∀ c ∈ ds, isBlank c = false) : trimStart ds = ds := by
    cases ds with
    | nil => rfl
    | cons d ds => rw [trimStart, List.dropWhile_cons_of_neg (by simp [hds d List.mem_cons_self])]
  rw [trim, hstart h, trimEnd, hstart fun c hc => h c (List.mem_reverse.1 hc), List.reverse_reverse]

end DateSpan.Blank
