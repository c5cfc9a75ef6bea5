import Mathlib.Data.List.Basic

/-! Loops that walk through a container with a cursor and erase some of what they come by. -/
namespace Mcl.Library

variable {σ ι ε δ β : Type}

/-- A cursor of a container. `look` shows what it is on and may change the cursor itself, and `erase`
says what it has released. -/
structure Cursor (σ ι δ β : Type) where
  atEnd : ι → Bool
  look : ι → σ → Option (δ × ι)
  next : ι → σ → Option ι
  erase : ι → σ → Option (ι × σ × List β)

namespace Cursor

/-- The loop that erases where `p` holds and goes on to the next where it does not. What it has been
shown comes first; `none` when the loop has not ended with the fuel. -/
def eraseLoop (C : Cursor σ ι δ β) (p : δ → Bool) : ℕ → ι → σ → Option (List δ × σ × List β)
  | 0, _, _ => none
  | fuel + 1, it, s =>
    if C.atEnd it then some ([], s, [])
    else do
      let (x, it) ← C.look it s
      if p x then do
        let (it, s, freed) ← C.erase it s
        let (seen, s, rest) ← C.eraseLoop p fuel it s
        some (x :: seen, s, freed ++ rest)
      else do
        let it ← C.next it s
        let (seen, s, freed) ← C.eraseLoop p fuel it s
        some (x :: seen, s, freed)

/-- `At kept rest it s` says that `s` holds `kept` and `rest`, and that `it` is in front of `rest`. -/
structure Walks (C : Cursor σ ι δ β) (p : δ → Bool) (view : ε → δ) (release : ε → List β)
    (At : List ε → List ε → ι → σ → Prop) : Prop where
  ends : ∀ {kept it s}, At kept [] it s → C.atEnd it = true
  looks : ∀ {kept x rest it s}, At kept (x :: rest) it s →
    C.atEnd it = false ∧ C.look it s = some (view x, it)
  moves : ∀ {kept x rest it s}, p (view x) = false → At kept (x :: rest) it s →
    ∃ it', C.next it s = some it' ∧ At (kept ++ [x]) rest it' s
  erases : ∀ {kept x rest it s}, p (view x) = true → At kept (x :: rest) it s →
    ∃ it' s', C.erase it s = some (it', s', release x) ∧ At kept rest it' s'

variable {C : Cursor σ ι δ β} {p : δ → Bool} {view : ε → δ} {release : ε → List β}
  {At : List ε → List ε → ι → σ → Prop} {rest : List ε} {it : ι} {s : σ}

/-- The loop takes one round for each element and filters what it walks through. -/
theorem Walks.eraseLoop_eq (h : C.Walks p view release At) (kept : List ε) (hat : At kept rest it s) :
    ∃ it' s', (∀ fuel, C.eraseLoop p fuel it s =
        if rest.length < fuel then
          some (rest.map view, s', (rest.filter fun x => p (view x)).flatMap release)
        else none) ∧
      At (kept ++ rest.filter fun x => !p (view x)) [] it' s' := by
  induction rest generalizing kept it s with
  | nil =>
    refine ⟨it, s, fun fuel => ?_, ?_⟩
    · cases fuel with
      | zero => rfl
      | succ fuel =>
        rw [eraseLoop, h.ends hat, if_pos rfl]
        exact (if_pos (Nat.succ_pos fuel)).symm
    · rwa [List.filter_nil, List.append_nil]
  | cons x rest ih =>
    obtain ⟨hend, hlook⟩ := h.looks hat
    cases hp : p (view x) with
    | true =>
      have hfilter : ((x :: rest).filter fun x => p (view x)) = x :: rest.filter fun x => p (view x) :=
        List.filter_cons_of_pos hp
      obtain ⟨it₁, s₁, herase, hat₁⟩ := h.erases hp hat
      obtain ⟨it', s', hloop, hat'⟩ := ih _ hat₁
      refine ⟨it', s', fun fuel => ?_, ?_⟩
      · cases fuel with
        | zero => rfl
        | succ fuel =>
          rw [eraseLoop, hend, if_neg Bool.false_ne_true]
          simp only [hlook, hp, herase, hloop, Option.bind_eq_bind, Option.bind_some, if_true, List.length_cons,
            Nat.add_lt_add_iff_right, List.map_cons]
          rw [hfilter, List.flatMap_cons]
          split <;> rfl
      · rwa [List.filter_cons_of_neg (by simp [hp])]
    | false =>
      have hfilter : ((x :: rest).filter fun x => p (view x)) = rest.filter fun x => p (view x) :=
        List.filter_cons_of_neg (by simp [hp])
      obtain ⟨it₁, hnext, hat₁⟩ := h.moves hp hat
      obtain ⟨it', s', hloop, hat'⟩ := ih _ hat₁
      refine ⟨it', s', fun fuel => ?_, ?_⟩
      · cases fuel with
        | zero => rfl
        | succ fuel =>
          rw [eraseLoop, hend, if_neg Bool.false_ne_true]
          simp only [hlook, hp, hnext, hloop, Option.bind_eq_bind, Option.bind_some, Bool.false_eq_true, if_false,
            List.length_cons, Nat.add_lt_add_iff_right, List.map_cons]
          rw [hfilter]
          split <;> rfl
      · rwa [List.filter_cons_of_pos (by simp [hp]), List.append_cons]

end Cursor
end Mcl.Library
