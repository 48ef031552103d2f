import Tnt.Publication
/-!
# The names of clients (`input.c`, `commands.c`)

A name is typed at the prompt or given to `:nick`. Both check it with
`is_valid_username` and keep what fits of its first 20 columns, so that a name is
always valid and made of bytes that were asked for.
-/
open BaseLib

namespace Tnt

def anonymous : CBuf MAX_USERNAME_LEN := CBuf.copy MAX_USERNAME_LEN (lit "anonymous")

/-- The end of `read_username`, for what was typed at the prompt. -/
def chooseUsername (charSigned : Bool) (username : CBuf MAX_USERNAME_LEN) : CBuf MAX_USERNAME_LEN :=
  if username.bytes = [] then anonymous
  else if !isValidUsername charSigned username.bytes then anonymous
  else if utf8Strlen username.bytes > 20 then CBuf.copy MAX_USERNAME_LEN (utf8Truncate username.bytes 20)
  else username

/-- Why `:nick` does not come to look for the name in the room. -/
inductive NickError
  | usage | invalid
  deriving DecidableEq

/-- `validated_name` of `:nick`, for the argument of the command. -/
def validatedName (charSigned : Bool) (arg : Bytes) : Except NickError (CBuf MAX_USERNAME_LEN) :=
  let newName := arg.dropWhile (· == 0x20)
  if newName = [] then .error .usage
  else if !isValidUsername charSigned newName then .error .invalid
  else
    let validatedName := CBuf.copy MAX_USERNAME_LEN newName
    if utf8Strlen validatedName.bytes > 20 then
      .ok (CBuf.copy MAX_USERNAME_LEN (utf8Truncate validatedName.bytes 20))
    else .ok validatedName

variable {charSigned : Bool}

theorem validUsername_zero {username : Bytes} (h : isValidUsername charSigned username = true) : 0 ∉ username := by
  intro h0
  rcases validUsername_ge h 0 h0 with h | h <;> exact absurd h (by decide)

/-- What a valid name starts with is valid. -/
theorem validUsername_start {username start : Bytes} (h : isValidUsername charSigned username = true)
    (hpre : start <+: username) (hne : start ≠ []) : isValidUsername charSigned start = true := by
  obtain ⟨rest, rfl⟩ := hpre
  have hfirst : byteAt (start ++ rest) 0 = byteAt start 0 := byteAt_append (List.length_pos_iff.2 hne) rest
  have hne' : start ++ rest ≠ [] := List.append_ne_nil_of_left_ne_nil hne rest
  simp only [isValidUsername, if_neg hne', hfirst] at h
  simp only [isValidUsername, if_neg hne]
  split
  · rename_i hbad
    simp [hbad] at h
  · rename_i hbad
    simp only [hbad, Bool.false_eq_true, if_false, List.all_append, Bool.and_eq_true] at h
    exact h.1

/-- The first 20 columns of a name. -/
theorem bytes_truncatedName (name : CBuf MAX_USERNAME_LEN) :
    (CBuf.copy MAX_USERNAME_LEN (utf8Truncate name.bytes 20)).bytes = utf8Truncate name.bytes 20 :=
  have hpre := isPrefix_utf8Truncate name.bytes 20
  CBuf.copy_bytes (fun h0 => name.nul_free (hpre.subset h0)) (hpre.length_le.trans_lt name.fits)

theorem chooseUsername_cases (charSigned : Bool) (username : CBuf MAX_USERNAME_LEN) :
    chooseUsername charSigned username = anonymous ∨ isValidUsername charSigned username.bytes = true ∧
      (chooseUsername charSigned username).bytes <+: username.bytes ∧
      (chooseUsername charSigned username).bytes ≠ [] := by
  unfold chooseUsername
  by_cases hne : username.bytes = []
  · simp [hne]
  by_cases hv : isValidUsername charSigned username.bytes = true
  swap
  · simp [hne, hv]
  refine .inr ⟨hv, ?_⟩
  simp only [if_neg hne, hv, Bool.not_true, Bool.false_eq_true, if_false]
  split
  · rw [bytes_truncatedName]
    exact ⟨isPrefix_utf8Truncate _ _, utf8Truncate_ne_nil hne (by decide)⟩
  · exact ⟨List.prefix_rfl, hne⟩

theorem validatedName_ok {arg : Bytes} {name : CBuf MAX_USERNAME_LEN} (h : validatedName charSigned arg = .ok name) :
    isValidUsername charSigned (arg.dropWhile (· == 0x20)) = true ∧ name.bytes <+: arg.dropWhile (· == 0x20) ∧
      name.bytes ≠ [] := by
  simp only [validatedName] at h
  generalize arg.dropWhile (· == 0x20) = newName at h ⊢
  by_cases hne : newName = []
  · simp [hne] at h
  by_cases hv : isValidUsername charSigned newName = true
  swap
  · simp [hne, hv] at h
  refine ⟨hv, ?_⟩
  have hcopy : (CBuf.copy MAX_USERNAME_LEN newName).bytes <+: newName :=
    (List.take_prefix _ _).trans (isPrefix_cstr _)
  have hcne : (CBuf.copy MAX_USERNAME_LEN newName).bytes ≠ [] := by
    obtain ⟨b, t, rfl⟩ := List.exists_cons_of_ne_nil hne
    have hb : b ≠ 0 := by
      rintro rfl
      exact validUsername_zero hv List.mem_cons_self
    simp [CBuf.copy, cstr, hb, MAX_USERNAME_LEN]
  simp only [if_neg hne, hv, Bool.not_true, Bool.false_eq_true, if_false] at h
  split at h <;> cases h
  · rw [bytes_truncatedName]
    exact ⟨(isPrefix_utf8Truncate _ _).trans hcopy, utf8Truncate_ne_nil hcne (by decide)⟩
  · exact ⟨hcopy, hcne⟩

theorem chooseUsername_valid (charSigned : Bool) (username : CBuf MAX_USERNAME_LEN) :
    isValidUsername charSigned (chooseUsername charSigned username).bytes = true := by
  rcases chooseUsername_cases charSigned username with h | ⟨hv, hpre, hne⟩
  · rw [h]
    cases charSigned <;> decide
  · exact validUsername_start hv hpre hne

theorem validatedName_valid {arg : Bytes} {name : CBuf MAX_USERNAME_LEN} (h : validatedName charSigned arg = .ok name) :
    isValidUsername charSigned name.bytes = true := by
  obtain ⟨hv, hpre, hne⟩ := validatedName_ok h
  exact validUsername_start hv hpre hne

end Tnt
