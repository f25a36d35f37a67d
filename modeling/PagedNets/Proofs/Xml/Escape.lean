import PagedNets.Xml.Token

set_option autoImplicit false

namespace PagedNets.Xml

def specials : List Char := ['&', '<', '>', '"', '\'', '\n', '\t', '\r']

def referenceChars : List Char := "&#;0139agmlopqstu".toList

/-- The piece as which an escaped character comes back. -/
def Piece.of (c : Char) : Piece := if c ∈ specials then .reference c else .raw c

theorem escapeChar_of_not_mem {c : Char} (h : c ∉ specials) : escapeChar c = [c] := by
  simp only [specials, List.mem_cons, List.not_mem_nil, or_false, not_or] at h
  simp [escapeChar, h]

theorem escape_eq_self {s : String} (h : ∀ c ∈ s.toList, c ∉ specials) : escape s = s := by
  have hchars : ∀ cs : List Char, (∀ c ∈ cs, c ∉ specials) → escapeChars cs = cs := by
    intro cs
    induction cs with
    | nil => exact fun _ => rfl
    | cons c cs ih =>
      intro hcs
      obtain ⟨hc, hcs⟩ := List.forall_mem_cons.mp hcs
      rw [escapeChars, List.flatMap_cons, escapeChar_of_not_mem hc, ← escapeChars, ih hcs]
      rfl
  rw [escape, hchars _ h, String.ofList_toList]

theorem takeReference?_escapeChar {c : Char} (h : c ∈ specials) (rest : List Char) :
    ∃ body, escapeChar c = '&' :: body ∧ takeReference? (body ++ rest) = some (c, rest) := by
  simp only [specials, List.mem_cons, List.not_mem_nil, or_false] at h
  rcases h with rfl | rfl | rfl | rfl | rfl | rfl | rfl | rfl <;> exact ⟨_, rfl, rfl⟩

theorem escapeChar_ne_nil (c : Char) : escapeChar c ≠ [] := by
  by_cases h : c ∈ specials
  · obtain ⟨body, hbody, _⟩ := takeReference?_escapeChar h []
    simp [hbody]
  · simp [escapeChar_of_not_mem h]

theorem mem_escapeChar {c x : Char} (h : x ∈ escapeChar c) :
    x ∈ referenceChars ∨ x = c ∧ c ∉ specials := by
  have hspecials : specials.all (fun c => (escapeChar c).all referenceChars.contains) = true := by
    decide
  by_cases hc : c ∈ specials
  · have hx := List.all_eq_true.mp (List.all_eq_true.mp hspecials c hc) x h
    exact .inl (List.contains_iff_mem.mp hx)
  · rw [escapeChar_of_not_mem hc, List.mem_singleton] at h
    exact .inr ⟨h, hc⟩

theorem mem_escapeChars {cs : List Char} {x : Char} (h : x ∈ escapeChars cs) :
    x ∈ referenceChars ∨ x ∈ cs ∧ x ∉ specials := by
  obtain ⟨c, hc, hx⟩ := List.mem_flatMap.mp h
  rcases mem_escapeChar hx with hx | ⟨rfl, hs⟩
  · exact .inl hx
  · exact .inr ⟨hc, hs⟩

theorem not_mem_escapeChars {cs : List Char} {x : Char} (hs : x ∈ specials) (hx : x ≠ '&') :
    x ∉ escapeChars cs := by
  intro h
  rcases mem_escapeChars h with h | ⟨_, h⟩
  · simp only [specials, List.mem_cons, List.not_mem_nil, or_false] at hs
    rcases hs with rfl | rfl | rfl | rfl | rfl | rfl | rfl | rfl
    · exact hx rfl
    all_goals exact absurd h (by decide)
  · exact h hs

theorem isXmlChar_of_mem_escapeChars {cs : List Char} (h : ∀ c ∈ cs, isXmlChar c = true) :
    ∀ x ∈ escapeChars cs, isXmlChar x = true := by
  intro x hx
  have hreferences : referenceChars.all isXmlChar = true := by decide
  rcases mem_escapeChars hx with hx | ⟨hx, _⟩
  · exact List.all_eq_true.mp hreferences x hx
  · exact h x hx

theorem piecesWithin_escapeChars {cs : List Char} {fuel : Nat}
    (hf : (escapeChars cs).length ≤ fuel) :
    piecesWithin fuel (escapeChars cs) = some (cs.map Piece.of) := by
  induction cs generalizing fuel with
  | nil => cases fuel <;> rfl
  | cons c cs ih =>
    have hsplit : escapeChars (c :: cs) = escapeChar c ++ escapeChars cs := rfl
    have hpos := List.length_pos_iff.mpr (escapeChar_ne_nil c)
    rw [hsplit, List.length_append] at hf
    obtain ⟨fuel, rfl⟩ : ∃ n, fuel = n + 1 := ⟨fuel - 1, by omega⟩
    by_cases hc : c ∈ specials
    · obtain ⟨body, hbody, htake⟩ := takeReference?_escapeChar hc (escapeChars cs)
      rw [hsplit, hbody, List.cons_append, piecesWithin, htake, Option.bind_some]
      have hlength : (escapeChars cs).length ≤ fuel := by
        rw [hbody, List.length_cons] at hf
        omega
      simp [Piece.of, hc, ih hlength]
    · have hamp : c ≠ '&' := fun he => hc (by rw [he]; decide)
      rw [hsplit, escapeChar_of_not_mem hc, List.singleton_append, piecesWithin, ih (by omega)]
      · simp [Piece.of, hc]
      · intro he
        exact hamp he

theorem pieces?_escapeChars (cs : List Char) :
    pieces? (escapeChars cs) = some (cs.map Piece.of) :=
  piecesWithin_escapeChars (Nat.le_refl _)

theorem flatten_map_of (cs : List Char) : flatten (cs.map Piece.of) = cs := by
  induction cs with
  | nil => rfl
  | cons c cs ih =>
    rw [List.map_cons, Piece.of]
    split
    · rw [flatten, ih]
    · next h =>
      simp only [specials, List.mem_cons, List.not_mem_nil, or_false, not_or] at h
      rw [flatten, ih]
      · simp [h]
      · simp [h]

theorem attributeValue?_escapeChars (s : String) :
    attributeValue? (escapeChars s.toList) = some s := by
  rw [attributeValue?, pieces?_escapeChars, Option.map_some, flatten_map_of, String.ofList_toList]

/-- A carriage return that waits was a reference, so it is kept. -/
theorem joinLines_map_of {pending exact : Bool} (h : pending = true → exact = true)
    (cs : List Char) :
    joinLines pending exact (cs.map Piece.of) = (if pending then ['\r'] else []) ++ cs := by
  induction cs generalizing pending exact with
  | nil => cases pending <;> rfl
  | cons c cs ih =>
    rw [List.map_cons, Piece.of]
    split
    · rw [joinLines]
      by_cases hr : c = '\r'
      · subst hr
        simp [ih]
      · simp [hr, ih]
    · next hc =>
      simp only [specials, List.mem_cons, List.not_mem_nil, or_false, not_or] at hc
      rw [joinLines]
      cases exact with
      | true => simp [hc, ih]
      | false =>
        have hp : pending = false := by
          cases pending with
          | false => rfl
          | true => exact absurd (h rfl) (by decide)
        simp [hc, hp, ih]

theorem characterData?_escapeChars (s : String) :
    characterData? (escapeChars s.toList) = some s := by
  rw [characterData?, pieces?_escapeChars, Option.map_some,
    joinLines_map_of (fun h => by cases h)]
  simp

theorem piecesWithin_of_not_mem {cs : List Char} (h : '&' ∉ cs) :
    ∀ fuel, cs.length ≤ fuel → piecesWithin fuel cs = some (cs.map .raw) := by
  induction cs with
  | nil => intro fuel _; cases fuel <;> rfl
  | cons c cs ih =>
    intro fuel hf
    simp only [List.mem_cons, not_or] at h
    obtain ⟨fuel, rfl⟩ : ∃ n, fuel = n + 1 := ⟨fuel - 1, by simp at hf; omega⟩
    rw [piecesWithin, ih h.2 fuel (by simpa using hf)]
    · rfl
    · intro he
      exact h.1 he.symm

theorem characterData?_of_not_mem {cs : List Char} (ha : '&' ∉ cs) (hr : '\r' ∉ cs) :
    characterData? cs = some (String.ofList cs) := by
  have hjoin : ∀ cs : List Char, '\r' ∉ cs → joinLines false false (cs.map .raw) = cs := by
    intro cs
    induction cs with
    | nil => exact fun _ => rfl
    | cons c cs ih =>
      intro hr
      simp only [List.mem_cons, not_or] at hr
      have hc : c ≠ '\r' := fun he => hr.1 he.symm
      simp [joinLines, hc, ih hr.2]
  rw [characterData?, pieces?, piecesWithin_of_not_mem ha _ (Nat.le_refl _), Option.map_some,
    hjoin cs hr]

end PagedNets.Xml
