import Clausal.Polarity
import Clausal.Proofs.WellFormed

/-! Formulas with a hole. The path from the root to the hole is a list of frames, each of them a
node with its other operands. -/
namespace Clausal

/-- A node with a hole in the place of one operand. -/
inductive Frame where
  | not
  | premise (conclusion : Formula)
  | conclusion (premise : Formula)
  | iffLeft (right : Formula)
  | iffRight (left : Formula)
  | and (before after : List Formula)
  | or (before after : List Formula)

namespace Frame

/-- The node with a formula in the hole. -/
def plug : Frame → Formula → Formula
  | not, a => .not a
  | premise b, a => .implies a b
  | conclusion b, a => .implies b a
  | iffLeft b, a => .iff a b
  | iffRight b, a => .iff b a
  | and before after, a => .and (before ++ a :: after)
  | or before after, a => .or (before ++ a :: after)

def connective : Frame → Connective
  | not => .not
  | premise _ | conclusion _ => .implies
  | iffLeft _ | iffRight _ => .iff
  | and _ _ => .and
  | or _ _ => .or

/-- The operands to the left of the hole. -/
def before : Frame → List Formula
  | not | premise _ | iffLeft _ => []
  | conclusion a | iffRight a => [a]
  | and as _ | or as _ => as

/-- The operands to the right of the hole. -/
def after : Frame → List Formula
  | not | conclusion _ | iffRight _ => []
  | premise b | iffLeft b => [b]
  | and _ bs | or _ bs => bs

@[simp] theorem connective?_plug (fr : Frame) (a : Formula) :
    (fr.plug a).connective? = some fr.connective := by
  cases fr <;> rfl

@[simp] theorem operands_plug (fr : Frame) (a : Formula) :
    (fr.plug a).operands = fr.before ++ a :: fr.after := by
  cases fr <;> rfl

/-- Whether a node is short depends on the number of its operands only. -/
theorem wellFormed_plug {fr : Frame} {a : Formula} (h : (fr.plug a).WellFormed) :
    a.WellFormed ∧ ∀ b : Formula, b.WellFormed → (fr.plug b).WellFormed := by
  have hnode : ∀ b : Formula, ¬ (fr.plug b).IsShort ↔
      fr.connective.arity.Allows (fr.before.length + (fr.after.length + 1)) := by
    intro b
    rw [Formula.not_isShort_iff (connective?_plug fr b), operands_plug, List.length_append,
      List.length_cons]
  refine ⟨h.operand (by simp), fun b hb => ?_⟩
  rw [Formula.WellFormed, Formula.everywhere_iff, hnode, ← hnode a, operands_plug]
  refine ⟨h.self, fun c hc => ?_⟩
  rcases List.mem_append.1 hc with hc | hc
  · exact h.operand (by simp [hc])
  rcases List.mem_cons.1 hc with rfl | hc
  · exact hb
  · exact h.operand (by simp [hc])

/-- A negation and the premise of an implication turn the polarity of what stands below. -/
def turns : Frame → Bool
  | not | premise _ => true
  | _ => false

def polarityBelow (fr : Frame) (p : Polarity) : Polarity := if fr.turns then p.flip else p

end Frame

/-- The path from the root to a hole. -/
abbrev Context := List Frame

namespace Context

/-- The formula with another formula in the hole. -/
def fill (K : Context) (f : Formula) : Formula := K.foldr Frame.plug f

@[simp] theorem fill_nil (f : Formula) : fill [] f = f := rfl

@[simp] theorem fill_cons (fr : Frame) (K : Context) (f : Formula) :
    fill (fr :: K) f = fr.plug (K.fill f) := rfl

theorem wellFormed_fill {K : Context} {f : Formula} (h : (K.fill f).WellFormed) :
    f.WellFormed ∧ ∀ g : Formula, g.WellFormed → (K.fill g).WellFormed := by
  induction K with
  | nil => exact ⟨h, fun g hg => hg⟩
  | cons fr K ih =>
    obtain ⟨hbelow, hplug⟩ := Frame.wellFormed_plug h
    obtain ⟨hf, hfill⟩ := ih hbelow
    exact ⟨hf, fun g hg => hplug _ (hfill g hg)⟩

/-- The hole stands below an equivalence. -/
def CrossesIff (K : Context) : Prop := ∃ fr ∈ K, fr.connective = .iff

/-- The number of negations and of premises on the path. -/
def turns (K : Context) : Nat := K.countP Frame.turns

/-- One step of the relation at some node, at any depth. -/
def Anywhere (R : Formula → Formula → Prop) (f g : Formula) : Prop :=
  ∃ (K : Context) (a b : Formula), R a b ∧ K.fill a = f ∧ K.fill b = g

namespace Anywhere

variable {R : Formula → Formula → Prop} {f g : Formula}

theorem plug (h : Anywhere R f g) (fr : Frame) : Anywhere R (fr.plug f) (fr.plug g) := by
  obtain ⟨K, a, b, hab, rfl, rfl⟩ := h
  exact ⟨fr :: K, a, b, hab, rfl, rfl⟩

theorem swap (h : Anywhere R f g) : Anywhere (fun a b => R b a) g f := by
  obtain ⟨K, a, b, hab, hf, hg⟩ := h
  exact ⟨K, b, a, hab, hg, hf⟩

theorem wellFormed (h : Anywhere R f g) (hR : ∀ a b, R a b → a.WellFormed → b.WellFormed)
    (hf : f.WellFormed) : g.WellFormed := by
  obtain ⟨K, a, b, hab, rfl, rfl⟩ := h
  obtain ⟨ha, hfill⟩ := wellFormed_fill hf
  exact hfill b (hR a b hab ha)

end Anywhere

end Context

end Clausal
