import Tnt.CommandLine
import Tnt.Lib.EditDistance
/-!
# Did you mean (`command_catalog.c`)

A command that is not in the catalog is answered with the nearest one. The
distance is the edit distance of the two names, computed with two rows of the
table, and names too long for the rows count as far away.
-/
open BaseLib

namespace Tnt

def min3 (a b c : Nat) : Nat :=
  let m := if a < b then a else b
  if m < c then m else c

/-- The inner loop of `edit_distance` for the byte `x` of the first string. The row read is `prev[j - 1]`, `prev[j]`
and on, and `left` is `curr[j - 1]`; the result is `curr[j]` and on. -/
def editRow (x : UInt8) : Bytes → List Nat → Nat → List Nat
  | y :: b, diagonal :: above :: prev, left =>
    let cost := if x = y then 0 else 1
    let here := min3 (above + 1) (left + 1) (diagonal + cost)
    here :: editRow x b (above :: prev) here
  | _, _, _ => []

/-- The outer loop from row `i` on, down to the last row. -/
def editRows (b : Bytes) : Bytes → Nat → List Nat → List Nat
  | [], _, prev => prev
  | x :: a, i, prev => editRows b a (i + 1) (i :: editRow x b prev i)

/-- `edit_distance` -/
def editDistance (a b : Bytes) : Nat :=
  let la := a.length
  let lb := b.length
  if la ≥ 32 ∨ lb ≥ 32 then 99
  else (editRows b a 1 (List.range (lb + 1))).getD lb 0

/-- The best name so far, and how far away it is. -/
abbrev Nearest := Option Bytes × Nat

/-- One name of `command_catalog_suggest`. -/
def nearer (name canonical : Bytes) (best : Nearest) (candidate : Bytes) : Nearest :=
  let distance := editDistance name candidate
  if distance < best.2 then (some canonical, distance) else best

/-- `command_catalog_suggest` -/
def commandCatalogSuggest (name : Bytes) : Option Bytes :=
  if name = [] then none
  else
    let best := commandCatalog.foldl (fun best (_, names) => names.foldl (nearer name (names.headD [])) best) (none, 99)
    if best.2 ≤ 2 then best.1 else none

/-! ## The table -/

theorem min3_eq (a b c : Nat) : min3 a b c = min (min a b) c := by
  unfold min3
  dsimp only
  split <;> split <;> omega

/-- From the row of `a`, the row of `a` with `x` at its end, behind the columns of `done`. -/
theorem editRow_eq (a : Bytes) (x : UInt8) (b done : Bytes) :
    editRow x b (b.inits.map fun front => levenshtein a (done ++ front)) (levenshtein (a ++ [x]) done) =
      b.inits.tail.map fun front => levenshtein (a ++ [x]) (done ++ front) := by
  induction b generalizing done with
  | nil => rfl
  | cons y b ih =>
    have hinits (c : Bytes) : (y :: b).inits.map (fun front => levenshtein c (done ++ front)) =
        levenshtein c done :: b.inits.map fun front => levenshtein c ((done ++ [y]) ++ front) := by
      simp [Function.comp_def]
    have hhead (c : Bytes) : b.inits.map (fun front => levenshtein c ((done ++ [y]) ++ front)) =
        levenshtein c (done ++ [y]) :: b.inits.tail.map fun front => levenshtein c ((done ++ [y]) ++ front) := by
      cases b <;> simp
    have hstep : min3 (levenshtein a (done ++ [y]) + 1) (levenshtein (a ++ [x]) done + 1)
        (levenshtein a done + if x = y then 0 else 1) = levenshtein (a ++ [x]) (done ++ [y]) := by
      rw [min3_eq, levenshtein_concat]
    have hrest := ih (done ++ [y])
    rw [hhead a] at hrest
    rw [hinits, hhead a]
    simp only [editRow, hstep, hrest]
    have htail : ((y :: b).inits.tail.map fun front => levenshtein (a ++ [x]) (done ++ front)) =
        b.inits.map fun front => levenshtein (a ++ [x]) ((done ++ [y]) ++ front) := by
      rw [List.map_tail, hinits, List.tail_cons]
    rw [htail, hhead]

theorem editRows_eq (b rest a : Bytes) :
    editRows b rest (a.length + 1) (b.inits.map (levenshtein a)) = b.inits.map (levenshtein (a ++ rest)) := by
  induction rest generalizing a with
  | nil => rw [List.append_nil, editRows]
  | cons x rest ih =>
    have hrow : (a.length + 1) :: editRow x b (b.inits.map (levenshtein a)) (a.length + 1) =
        b.inits.map (levenshtein (a ++ [x])) := by
      have h := editRow_eq a x b []
      simp only [List.nil_append, levenshtein_nil_right, List.length_append, List.length_singleton] at h
      rw [h]
      cases b <;> simp
    rw [editRows, hrow]
    have h := ih (a ++ [x])
    rwa [List.length_append, List.length_singleton, List.append_assoc, List.singleton_append] at h

/-- Strings the rows have room for are compared by their edit distance. -/
theorem editDistance_eq {a b : Bytes} (ha : a.length < 32) (hb : b.length < 32) :
    editDistance a b = levenshtein a b := by
  have hfirst : List.range (b.length + 1) = b.inits.map (levenshtein []) := by
    apply List.ext_getElem (by simp)
    intro j hj _
    simp only [List.getElem_range, List.getElem_map, List.getElem_inits, levenshtein_nil_left, List.length_take]
    simp only [List.length_range] at hj
    omega
  have hrows := editRows_eq b a []
  rw [List.length_nil, List.nil_append, ← hfirst] at hrows
  rw [editDistance, if_neg (by omega), hrows, List.getD_eq_getElem?_getD, List.getElem?_map]
  simp

/-! ## The first of the least -/

section Least

variable {β γ : Type*} (f : β → Nat) (g : β → γ)

/-- One element of a search for the first of the least. -/
def improve (best : Option γ × Nat) (x : β) : Option γ × Nat := if f x < best.2 then (some (g x), f x) else best

theorem exists_first_least {l : List β} (h : l ≠ []) :
    ∃ before x after, l = before ++ x :: after ∧ (∀ y ∈ l, f x ≤ f y) ∧ ∀ y ∈ before, f x < f y := by
  induction l with
  | nil => exact absurd rfl h
  | cons y l ih =>
    by_cases hl : l = []
    · exact ⟨[], y, [], by rw [hl, List.nil_append], by simp [hl], by simp⟩
    · obtain ⟨before, x, after, rfl, hleast, hfirst⟩ := ih hl
      by_cases hy : f y ≤ f x
      · refine ⟨[], y, _, rfl, fun z hz => ?_, by simp⟩
        rcases List.mem_cons.1 hz with rfl | hz
        · exact Nat.le_refl _
        · exact hy.trans (hleast z hz)
      · have hxy := Nat.lt_of_not_le hy
        exact ⟨y :: before, x, after, rfl, List.forall_mem_cons.2 ⟨hxy.le, hleast⟩,
          List.forall_mem_cons.2 ⟨hxy, hfirst⟩⟩

variable {f g}

theorem foldl_improve_of_le {l : List β} {best : Option γ × Nat} (h : ∀ y ∈ l, best.2 ≤ f y) :
    l.foldl (improve f g) best = best := by
  induction l with
  | nil => rfl
  | cons y l ih =>
    obtain ⟨hy, hl⟩ := List.forall_mem_cons.1 h
    rw [List.foldl_cons, improve, if_neg (Nat.not_lt.2 hy), ih hl]

theorem foldl_improve_of_least {before after : List β} {x : β} {best : Option γ × Nat}
    (hleast : ∀ y ∈ before ++ x :: after, f x ≤ f y) (hfirst : ∀ y ∈ before, f x < f y) (hbest : f x < best.2) :
    (before ++ x :: after).foldl (improve f g) best = (some (g x), f x) := by
  -- Until `x` comes, what was found is farther away.
  have hbefore : f x < (before.foldl (improve f g) best).2 := by
    refine List.foldlRecOn (motive := fun best => f x < best.2) before (improve f g) hbest fun best hlt y hy => ?_
    unfold improve
    split
    · exact hfirst y hy
    · exact hlt
  have hafter : ∀ y ∈ after, f x ≤ f y := fun y hy => hleast y (List.mem_append_right _ (List.mem_cons_of_mem _ hy))
  rw [List.foldl_append, List.foldl_cons, improve, if_pos hbefore, foldl_improve_of_le hafter]

end Least

/-! ## The nearest name -/

/-- The least distance to some names. -/
def leastAway (dist : Bytes → Nat) (names : List Bytes) : Nat := (names.map dist).min?.getD 0

theorem leastAway_spec (dist : Bytes → Nat) {names : List Bytes} (h : names ≠ []) :
    (∃ n ∈ names, dist n = leastAway dist names) ∧ ∀ n ∈ names, leastAway dist names ≤ dist n := by
  obtain ⟨d, hd⟩ : ∃ d, (names.map dist).min? = some d := Option.isSome_iff_exists.1 (by simp [List.isSome_min?_iff, h])
  obtain ⟨hmem, hle⟩ := List.min?_eq_some_iff.1 hd
  rw [leastAway, hd, Option.getD_some]
  exact ⟨List.mem_map.1 hmem, fun n hn => hle _ (List.mem_map_of_mem hn)⟩

/-- The names of one entry count as one name at their least distance. -/
theorem foldl_nearer {name canonical : Bytes} {names : List Bytes} (h : names ≠ []) (best : Nearest) :
    names.foldl (nearer name canonical) best =
      improve (leastAway (editDistance name)) (fun _ => canonical) best names := by
  have hnearer : nearer name canonical = improve (editDistance name) fun _ => canonical := rfl
  obtain ⟨before, n, after, rfl, hleast, hfirst⟩ := exists_first_least (editDistance name) h
  obtain ⟨⟨n', hmem', hn'⟩, hle⟩ := leastAway_spec (editDistance name) h
  have hn : leastAway (editDistance name) (before ++ n :: after) = editDistance name n :=
    Nat.le_antisymm (hle n (by simp)) (hn' ▸ hleast n' hmem')
  rw [hnearer, improve, hn]
  split
  · exact foldl_improve_of_least hleast hfirst ‹_›
  · exact foldl_improve_of_le fun y hy => (Nat.not_lt.1 ‹_›).trans (hleast y hy)

theorem catalog_names : ∀ entry ∈ commandCatalog, entry.2 ≠ [] ∧ ∀ n ∈ entry.2, n.length ≤ 10 := by decide

theorem commandCatalogSuggest_eq {name : Bytes} (h : name ≠ []) :
    commandCatalogSuggest name =
      let best := commandCatalog.foldl (improve (fun entry => leastAway (editDistance name) entry.2)
        fun entry => entry.2.headD []) (none, 99)
      if best.2 ≤ 2 then best.1 else none := by
  have hfold :
      commandCatalog.foldl (fun best (_, names) => names.foldl (nearer name (names.headD [])) best) (none, 99) =
      commandCatalog.foldl (improve (fun entry => leastAway (editDistance name) entry.2)
        fun entry => entry.2.headD []) (none, 99) :=
    List.foldl_ext _ _ _ fun best entry hentry => foldl_nearer (catalog_names entry hentry).1 best
  rw [commandCatalogSuggest, if_neg h, hfold]

theorem leastAway_congr {dist dist' : Bytes → Nat} {names : List Bytes} (h : ∀ n ∈ names, dist n = dist' n) :
    leastAway dist names = leastAway dist' names := by
  rw [leastAway, leastAway, List.map_congr_left h]

/-- The suggestion by the first of the nearest commands. -/
theorem commandCatalogSuggest_first {name : Bytes} {id : CommandId} {names : List Bytes}
    {before after : List (CommandId × List Bytes)} (hname : name ≠ [])
    (hsplit : commandCatalog = before ++ (id, names) :: after)
    (hleast : ∀ entry ∈ commandCatalog, leastAway (levenshtein name) names ≤ leastAway (levenshtein name) entry.2)
    (hfirst : ∀ entry ∈ before, leastAway (levenshtein name) names < leastAway (levenshtein name) entry.2) :
    commandCatalogSuggest name = if leastAway (levenshtein name) names ≤ 2 then some (names.headD []) else none := by
  have hentry : (id, names) ∈ commandCatalog := by rw [hsplit]; simp
  obtain ⟨n, hn, hdist⟩ : ∃ n ∈ names, levenshtein name n = leastAway (levenshtein name) names :=
    (leastAway_spec (levenshtein name) (catalog_names _ hentry).1).1
  have hlen : n.length ≤ 10 := (catalog_names _ hentry).2 n hn
  rw [commandCatalogSuggest_eq hname]
  by_cases hshort : name.length < 32
  · have heq : ∀ entry ∈ commandCatalog, leastAway (editDistance name) entry.2 = leastAway (levenshtein name) entry.2 :=
      fun entry he => leastAway_congr fun m hm =>
        editDistance_eq hshort (Nat.lt_of_le_of_lt ((catalog_names entry he).2 m hm) (by decide))
    have hupper := levenshtein_le_length name n
    have hfold : commandCatalog.foldl (improve (fun entry => leastAway (editDistance name) entry.2)
        fun entry => entry.2.headD []) (none, 99) = (some (names.headD []), leastAway (levenshtein name) names) := by
      rw [← heq _ hentry, hsplit]
      refine foldl_improve_of_least (fun entry he => ?_) (fun entry he => ?_) ?_
      · rw [← hsplit] at he
        rw [heq _ hentry, heq entry he]
        exact hleast entry he
      · rw [heq _ hentry, heq entry (hsplit ▸ List.mem_append_left _ he)]
        exact hfirst entry he
      · rw [heq _ hentry]
        dsimp only
        omega
    rw [hfold]
  · -- Every name of the catalog is more than two bytes shorter.
    have hfar : ∀ entry ∈ commandCatalog, (99 : Nat) ≤ leastAway (editDistance name) entry.2 := by
      intro entry he
      obtain ⟨m, -, hm⟩ := (leastAway_spec (editDistance name) (catalog_names entry he).1).1
      rw [← hm, editDistance, if_pos (.inl (Nat.not_lt.1 hshort))]
    have hfold : commandCatalog.foldl (improve (fun entry => leastAway (editDistance name) entry.2)
        fun entry => entry.2.headD []) (none, 99) = (none, 99) := foldl_improve_of_le hfar
    have hlower := length_le_levenshtein name n
    rw [hfold, if_neg (by decide), if_neg (by omega)]

/-- The distance is the edit distance, and the suggestion is the first of the nearest commands, unless all are too far
away. -/
theorem suggestion_nearest :
    (∀ a b : Bytes, a.length < 32 → b.length < 32 → EditsAway a b (editDistance a b)) ∧
      ∀ name : Bytes, name ≠ [] → ∃ least before id names after,
        commandCatalog = before ++ (id, names) :: after ∧ (∃ n ∈ names, EditsAway name n least) ∧
        (∀ entry ∈ commandCatalog, ∀ n ∈ entry.2, ∀ d, EditsAway name n d → least ≤ d) ∧
        (∀ entry ∈ before, ∀ n ∈ entry.2, ¬ EditsAway name n least) ∧
        commandCatalogSuggest name = if least ≤ 2 then some (names.headD []) else none := by
  constructor
  · intro a b ha hb
    rw [editDistance_eq ha hb]
    exact editsAway_levenshtein a b
  · intro name hname
    obtain ⟨before, ⟨id, names⟩, after, hsplit, hleast, hfirst⟩ :=
      exists_first_least (fun entry => leastAway (levenshtein name) entry.2) (l := commandCatalog) (by decide)
    have hentry : (id, names) ∈ commandCatalog := by rw [hsplit]; simp
    obtain ⟨hne, hlen⟩ := catalog_names _ hentry
    obtain ⟨⟨n, hn, hdist⟩, -⟩ := leastAway_spec (levenshtein name) hne
    refine ⟨leastAway (levenshtein name) names, before, id, names, after, hsplit,
      ⟨n, hn, editsAway_iff.2 hdist.symm⟩, fun entry he m hm d hd => ?_, fun entry he m hm hd => ?_, ?_⟩
    · rw [editsAway_iff.1 hd]
      exact (hleast entry he).trans ((leastAway_spec _ (catalog_names entry he).1).2 m hm)
    · have he' : entry ∈ commandCatalog := hsplit ▸ List.mem_append_left _ he
      have := (leastAway_spec (levenshtein name) (catalog_names entry he').1).2 m hm
      have hlt : leastAway (levenshtein name) names < leastAway (levenshtein name) entry.2 := hfirst entry he
      have := editsAway_iff.1 hd
      omega
    · exact commandCatalogSuggest_first hname hsplit hleast hfirst

theorem suggestion_nearest_serach :
    EditsAway (lit "serach") (lit "search") 2 ∧ ∃ least before id names after,
      commandCatalog = before ++ (id, names) :: after ∧ (∃ n ∈ names, EditsAway (lit "serach") n least) ∧
      commandCatalogSuggest (lit "serach") = if least ≤ 2 then some (names.headD []) else none := by
  have hdist : editDistance (lit "serach") (lit "search") = 2 := by decide
  obtain ⟨least, before, id, names, after, hsplit, hnear, -, -, hsuggest⟩ :=
    suggestion_nearest.2 (lit "serach") (by decide)
  exact ⟨hdist ▸ suggestion_nearest.1 (lit "serach") (lit "search") (by decide) (by decide),
    least, before, id, names, after, hsplit, hnear, hsuggest⟩

end Tnt
