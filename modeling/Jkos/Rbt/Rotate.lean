import Jkos.Rbt.Basic

/-!
# The effect of one rotation on the memory

`rotate` reads its `Node *&` argument again after every store. When the three
nodes it touches and the node that holds the reference are distinct, the stores
do not interfere and the final memory is described node by node in `Rotated`.
-/

namespace Jkos.Rbt

universe u

variable {Key : Type u}

namespace State

@[simp] theorem nil_modify (s : State Key) (p : Word) (f : Node Key → Node Key) :
    (s.modify p f).nil = s.nil := rfl

@[simp] theorem root_modify (s : State Key) (p : Word) (f : Node Key → Node Key) :
    (s.modify p f).root = s.root := rfl

@[simp] theorem trace_modify (s : State Key) (p : Word) (f : Node Key → Node Key) :
    (s.modify p f).trace = s.trace := rfl

@[simp] theorem mem_modify_same (s : State Key) (p : Word) (f : Node Key → Node Key) :
    (s.modify p f).mem p = f (s.mem p) := by
  simp [modify]

theorem mem_modify_ne (s : State Key) {p q : Word} (f : Node Key → Node Key) (h : q ≠ p) :
    (s.modify p f).mem q = s.mem q := by
  simp [modify, h]

@[simp] theorem nil_record (s : State Key) (e : Event) : (s.record e).nil = s.nil := rfl

@[simp] theorem root_record (s : State Key) (e : Event) : (s.record e).root = s.root := rfl

@[simp] theorem mem_record (s : State Key) (e : Event) : (s.record e).mem = s.mem := rfl

@[simp] theorem trace_record (s : State Key) (e : Event) :
    (s.record e).trace = e :: s.trace := rfl

theorem deref_modify_ne (s : State Key) {ref : Ref} {q : Word} (f : Node Key → Node Key)
    (h : ∀ p i, ref = .child p i → p ≠ q) : (s.modify q f).deref ref = s.deref ref := by
  cases ref with
  | treeRoot => rfl
  | child p i => simp [deref, mem_modify_ne s f (h p i rfl)]

/-- The three nodes a rotation works on, and the rest of the state `s₀`. -/
structure View (s₀ s : State Key) (ref : Ref) (a b m : Word) (na nb nm : Node Key) : Prop where
  nil : s.nil = s₀.nil
  root : s.root = s₀.root
  trace : s.trace = s₀.trace
  deref : s.deref ref = a
  atA : s.mem a = na
  atB : s.mem b = nb
  atM : s.mem m = nm
  other : ∀ q, q ≠ a → q ≠ b → q ≠ m → s.mem q = s₀.mem q

section View

variable {s₀ s : State Key} {ref : Ref} {a b m : Word} {na nb nm : Node Key}

theorem View.modify_a (h : View s₀ s ref a b m na nb nm) (f : Node Key → Node Key)
    (hab : a ≠ b) (ham : a ≠ m) (hp : ∀ p i, ref = .child p i → p ≠ a) :
    View s₀ (s.modify a f) ref a b m (f na) nb nm where
  nil := h.nil
  root := h.root
  trace := h.trace
  deref := by rw [deref_modify_ne s f hp, h.deref]
  atA := by rw [mem_modify_same, h.atA]
  atB := by rw [mem_modify_ne s f hab.symm, h.atB]
  atM := by rw [mem_modify_ne s f ham.symm, h.atM]
  other q ha hb hm := by rw [mem_modify_ne s f ha, h.other q ha hb hm]

theorem View.modify_b (h : View s₀ s ref a b m na nb nm) (f : Node Key → Node Key)
    (hab : a ≠ b) (hbm : b ≠ m) (hp : ∀ p i, ref = .child p i → p ≠ b) :
    View s₀ (s.modify b f) ref a b m na (f nb) nm where
  nil := h.nil
  root := h.root
  trace := h.trace
  deref := by rw [deref_modify_ne s f hp, h.deref]
  atA := by rw [mem_modify_ne s f hab, h.atA]
  atB := by rw [mem_modify_same, h.atB]
  atM := by rw [mem_modify_ne s f hbm.symm, h.atM]
  other q ha hb hm := by rw [mem_modify_ne s f hb, h.other q ha hb hm]

theorem View.modify_m (h : View s₀ s ref a b m na nb nm) (f : Node Key → Node Key)
    (ham : a ≠ m) (hbm : b ≠ m) (hp : ∀ p i, ref = .child p i → p ≠ m) :
    View s₀ (s.modify m f) ref a b m na nb (f nm) where
  nil := h.nil
  root := h.root
  trace := h.trace
  deref := by rw [deref_modify_ne s f hp, h.deref]
  atA := by rw [mem_modify_ne s f ham, h.atA]
  atB := by rw [mem_modify_ne s f hbm, h.atB]
  atM := by rw [mem_modify_same, h.atM]
  other q ha hb hm := by rw [mem_modify_ne s f hm, h.other q ha hb hm]

end View

/-- What a rotation does to the memory, when the nodes involved are distinct. -/
structure Rotated (s s' : State Key) (ref : Ref) (dir : Bool) (a b m : Word) : Prop where
  nil : s'.nil = s.nil
  trace : s'.trace = .rotate a b :: s.trace
  root : s'.root = if ref = .treeRoot then b else s.root
  lowered : s'.mem a = (((s.mem a).setCh (!dir) m).setPar b).setSize
    ((s.mem ((s.mem a).ch dir)).size + (s.mem m).size + 1)
  lifted : s'.mem b = (((s.mem b).copyPar (s.mem a)).setCh dir a).setSize (s.mem a).size
  moved : s'.mem m = (s.mem m).setPar a
  slot : ∀ p i, ref = .child p i → s'.mem p = (s.mem p).setCh i b
  other : ∀ q, q ≠ a → q ≠ b → q ≠ m → (∀ p i, ref = .child p i → q ≠ p) → s'.mem q = s.mem q

theorem rotate_rotated (s : State Key) {ref : Ref} {dir : Bool} {a b m : Word}
    (ha : s.deref ref = a) (hb : (s.mem a).ch (!dir) = b) (hm : (s.mem b).ch dir = m)
    (hxa : (s.mem a).ch dir ≠ a) (hxb : (s.mem a).ch dir ≠ b)
    (hab : a ≠ b) (ham : a ≠ m) (hbm : b ≠ m)
    (hslot : ∀ p i, ref = .child p i → p ≠ a ∧ p ≠ b ∧ p ≠ m) :
    Rotated s (s.rotate ref dir) ref dir a b m := by
  have hpa : ∀ p i, ref = .child p i → p ≠ a := fun p i h => (hslot p i h).1
  have hpb : ∀ p i, ref = .child p i → p ≠ b := fun p i h => (hslot p i h).2.1
  have hpm : ∀ p i, ref = .child p i → p ≠ m := fun p i h => (hslot p i h).2.2
  unfold rotate
  extract_lets t s₀ s₁ s₂ s₃ s₄ s₅ s₆ s₇
  have et : t = b := by simp only [t, ha, hb]
  have v₀ : View s₀ s₀ ref a b m (s.mem a) (s.mem b) (s.mem m) :=
    ⟨rfl, rfl, rfl, ha, rfl, rfl, rfl, fun _ _ _ _ => rfl⟩
  have v₁ := v₀.modify_b (·.copyPar (s.mem a)) hab hbm hpb
  have e₁ : s₁ = s₀.modify b (·.copyPar (s.mem a)) := by simp only [s₁, et, v₀.deref, v₀.atA]
  rw [← e₁] at v₁
  have v₂ := v₁.modify_a (·.setCh (!dir) m) hab ham hpa
  have e₂ : s₂ = s₁.modify a (·.setCh (!dir) m) := by
    simp only [s₂, et, v₁.deref, v₁.atB, Node.ch_copyPar, hm]
  rw [← e₂] at v₂
  have v₃ := v₂.modify_m (·.setPar a) ham hbm hpm
  have e₃ : s₃ = s₂.modify m (·.setPar a) := by
    simp only [s₃, v₂.deref, v₂.atA, Node.ch_setCh_same]
  rw [← e₃] at v₃
  have v₄ := v₃.modify_b (·.setCh dir a) hab hbm hpb
  have e₄ : s₄ = s₃.modify b (·.setCh dir a) := by simp only [s₄, et, v₃.deref]
  rw [← e₄] at v₄
  have v₅ := v₄.modify_a (·.setPar b) hab ham hpa
  have e₅ : s₅ = s₄.modify a (·.setPar b) := by
    simp only [s₅, et, v₄.atB, Node.ch_setCh_same]
  rw [← e₅] at v₅
  have v₆ := v₅.modify_b (·.setSize (s.mem a).size) hab hbm hpb
  have e₆ : s₆ = s₅.modify b (·.setSize (s.mem a).size) := by
    simp only [s₆, et, v₅.deref, v₅.atA, Node.size_setPar, Node.size_setCh]
  rw [← e₆] at v₆
  have sizeX : (s₆.mem ((s.mem a).ch dir)).size = (s.mem ((s.mem a).ch dir)).size := by
    by_cases hxm : (s.mem a).ch dir = m
    · rw [hxm, v₆.atM, Node.size_setPar]
    · rw [v₆.other _ hxa hxb hxm, mem_record]
  have sum : (s₆.mem ((s₆.mem a).ch false)).size + (s₆.mem ((s₆.mem a).ch true)).size + 1 =
      (s.mem ((s.mem a).ch dir)).size + (s.mem m).size + 1 := by
    rw [v₆.atA, Node.ch_setPar]
    cases dir
    · simp [Node.setCh, sizeX, v₆.atM]
    · simp [Node.setCh, sizeX, v₆.atM, Int.add_comm]
  have v₇ := v₆.modify_a
    (·.setSize ((s.mem ((s.mem a).ch dir)).size + (s.mem m).size + 1)) hab ham hpa
  have e₇ : s₇ = s₆.modify a
      (·.setSize ((s.mem ((s.mem a).ch dir)).size + (s.mem m).size + 1)) := by
    simp only [s₇, v₆.deref, sum]
  rw [← e₇] at v₇
  rw [et]
  cases ref with
  | treeRoot =>
      refine ⟨v₇.nil, v₇.trace.trans ?_, rfl, v₇.atA, v₇.atB, v₇.atM, by simp, ?_⟩
      · rw [trace_record, ha, et]
      · intro q hqa hqb hqm _
        exact v₇.other q hqa hqb hqm
  | child p i =>
      have atP : s₇.mem p = s.mem p :=
        v₇.other p (hpa p i rfl) (hpb p i rfl) (hpm p i rfl)
      refine ⟨v₇.nil, v₇.trace.trans ?_, v₇.root, ?_, ?_, ?_, ?_, ?_⟩
      · rw [trace_record, ha, et]
      · rw [assign, mem_modify_ne _ _ (hpa p i rfl).symm, v₇.atA]
      · rw [assign, mem_modify_ne _ _ (hpb p i rfl).symm, v₇.atB]
      · rw [assign, mem_modify_ne _ _ (hpm p i rfl).symm, v₇.atM]
      · rintro _ _ ⟨⟩
        rw [assign, mem_modify_same, atP]
      · intro q hqa hqb hqm hq
        rw [assign, mem_modify_ne _ _ (hq p i rfl)]
        exact v₇.other q hqa hqb hqm
end State

end Jkos.Rbt
