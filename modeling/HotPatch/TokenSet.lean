import HotPatch.Token

/-!
# Sets of tokens

A set is listed in increasing order of the tokens' values, without repetition.
-/

namespace HotPatch

abbrev TokenSet := List Token

namespace TokenSet

def insert (token : Token) : TokenSet → TokenSet
  | [] => [token]
  | first :: rest =>
    if token = first then first :: rest
    else if token.value < first.value then token :: first :: rest
    else first :: insert token rest

def ofList (tokens : List Token) : TokenSet := tokens.foldl (fun set token => insert token set) []

theorem mem_insert {token x : Token} {set : TokenSet} : x ∈ insert token set ↔ x = token ∨ x ∈ set := by
  induction set with
  | nil => simp [insert]
  | cons first rest ih =>
    simp only [insert]
    split
    · rename_i h
      simp [h]
    · split
      · simp
      · simp only [List.mem_cons, ih]
        constructor
        · rintro (h | h | h) <;> simp [h]
        · rintro (h | h | h) <;> simp [h]

theorem mem_foldl_insert {tokens : List Token} {x : Token} {set : TokenSet} :
    x ∈ tokens.foldl (fun set token => insert token set) set ↔ x ∈ set ∨ x ∈ tokens := by
  induction tokens generalizing set with
  | nil => simp
  | cons token tokens ih =>
    rw [List.foldl_cons, ih, mem_insert, List.mem_cons]
    constructor
    · rintro ((h | h) | h) <;> simp [h]
    · rintro (h | h | h) <;> simp [h]

theorem mem_ofList {tokens : List Token} {x : Token} : x ∈ ofList tokens ↔ x ∈ tokens := by
  simp [ofList, mem_foldl_insert]

/-- The tokens stand in increasing order, so none of them twice. -/
def Ascending (set : TokenSet) : Prop := set.Pairwise fun a b => a.value < b.value

theorem Ascending.insert {set : TokenSet} (h : Ascending set) (token : Token) :
    Ascending (TokenSet.insert token set) := by
  unfold Ascending at h ⊢
  induction set with
  | nil => exact List.pairwise_singleton _ _
  | cons first rest ih =>
    obtain ⟨hfirst, hrest⟩ := List.pairwise_cons.mp h
    rw [TokenSet.insert]
    split
    · exact h
    · rename_i hne
      split
      · rename_i hlt
        refine List.pairwise_cons.mpr ⟨fun other ho => ?_, h⟩
        rcases List.mem_cons.mp ho with rfl | ho
        · exact hlt
        · exact UInt32.lt_trans hlt (hfirst other ho)
      · rename_i hlt
        have hgreater : first.value < token.value := by
          refine UInt32.lt_of_le_of_ne (UInt32.not_lt.mp hlt) fun he => hne ?_
          exact congrArg Token.mk he.symm
        refine List.pairwise_cons.mpr ⟨fun other ho => ?_, ih hrest⟩
        rcases mem_insert.mp ho with rfl | ho
        · exact hgreater
        · exact hfirst other ho

theorem ascending_ofList (tokens : List Token) : Ascending (ofList tokens) := by
  have hall : ∀ (tokens : List Token) {set : TokenSet}, Ascending set →
      Ascending (tokens.foldl (fun set token => insert token set) set) := by
    intro tokens
    induction tokens with
    | nil => exact fun h => h
    | cons token tokens ih => exact fun h => ih (h.insert token)
  exact hall tokens List.Pairwise.nil

end TokenSet
end HotPatch
