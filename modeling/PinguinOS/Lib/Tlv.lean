import Mathlib.Data.List.Basic

/-! Lists of options, each a code, a length and its data, and fields that the options set. -/
namespace Tlv

variable {α β σ γ : Type*} [DecidableEq α]

/-- The options of a list of bytes, up to the byte `stop` or the first that is cut short; a byte
`pad` stands alone. There are at most `n` of them. -/
def options (pad stop : α) (size : α → Nat) : (n : Nat) → List α → List (α × List α)
  | 0, _ => []
  | _ + 1, [] => []
  | n + 1, code :: rest =>
    if code = stop then []
    else if code = pad then options pad stop size n rest
    else
      match rest with
      | [] => []
      | len :: rest =>
        if rest.length < size len then []
        else (code, rest.take (size len)) :: options pad stop size n (rest.drop (size len))

/-- The value that the options give last. -/
def last (value : β → Option γ) (l : List β) : Option γ := (l.filterMap value).getLast?

variable {step : σ → β → σ} {get : σ → γ} {value : β → Option γ} {l : List β} {s : σ}
  {pad stop code len : α} {size : α → Nat} {n : Nat} {data rest : List α}

theorem options_stop : options pad stop size (n + 1) (stop :: rest) = [] := if_pos rfl

theorem options_cons (hstop : code ≠ stop) (hpad : code ≠ pad) (hlen : size len = data.length) :
    options pad stop size (n + 1) (code :: len :: (data ++ rest)) =
      (code, data) :: options pad stop size n rest := by
  have hroom : ¬ (data ++ rest).length < data.length := by
    rw [List.length_append]
    omega
  rw [options, if_neg hstop, if_neg hpad, hlen, if_neg hroom, List.take_left, List.drop_left]

theorem last_cons {o : β} : last value (o :: l) = (last value l).or (value o) := by
  unfold last
  cases hvalue : value o with
  | none => rw [List.filterMap_cons_none hvalue, Option.or_none]
  | some x =>
    rw [List.filterMap_cons_some hvalue, List.getLast?_cons]
    cases (l.filterMap value).getLast? with
    | none => rfl
    | some y => rfl

/-- A field that each option sets or leaves alone has the value that was given last. -/
theorem get_foldl (h : ∀ s o, get (step s o) = (value o).getD (get s)) :
    get (l.foldl step s) = (last value l).getD (get s) := by
  induction l generalizing s with
  | nil => rfl
  | cons o l ih =>
    rw [List.foldl_cons, ih, h, last_cons]
    cases last value l with
    | none => rfl
    | some x => rfl

end Tlv
