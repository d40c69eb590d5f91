import SomeOs.Base.ByteView

/-! # The device tree

The tree is parsed from the tokens of its structure block. The names and values of the result
point into the blocks that were parsed.
-/
namespace SomeOs.Devices
open ByteView

def fdtBeginNode : ℕ := 1

def fdtEndNode : ℕ := 2

def fdtProp : ℕ := 3

def fdtNop : ℕ := 4

def fdtEnd : ℕ := 9

structure ReservedMemory where
  addr : ℕ
  size : ℕ
  deriving DecidableEq

structure DeviceTreeProperty where
  name : ℕ
  len : ℕ
  value : ℕ
  deriving DecidableEq

inductive DeviceTreeNode where
  | mk (name : ℕ) (props : List DeviceTreeProperty) (nodes : List DeviceTreeNode)

/-- The loop of `parseReservedMemoryRegions`, with the regions so far. -/
def reservedLoop (m : View) : ℕ → ℕ → List ReservedMemory → Option (List ReservedMemory)
  | 0, _, _ => none
  | fuel + 1, mem_rsvmap, regions =>
    (read64be m mem_rsvmap).bind fun address => (read64be m (mem_rsvmap + 8)).bind fun size =>
      if address ≠ 0 ∨ size ≠ 0 then reservedLoop m fuel (mem_rsvmap + 16) (regions ++ [⟨address, size⟩])
      else some regions

def parseReservedMemoryRegions (m : View) (fuel mem_rsvmap : ℕ) : Option (List ReservedMemory) :=
  reservedLoop m fuel mem_rsvmap []

/-- The loop of `parseDeviceTreeNode`, with the properties and the children so far. -/
def nodeLoop (m : View) (dt_strings : ℕ) : ℕ → ℕ → List DeviceTreeProperty → List DeviceTreeNode →
    Option (ℕ × List DeviceTreeProperty × List DeviceTreeNode)
  | 0, _, _, _ => none
  | fuel + 1, dt_struct, props, nodes =>
    (read32be m dt_struct).bind fun token =>
      let dt_struct := dt_struct + 4
      if token = fdtBeginNode then
        (strlen m fuel dt_struct).bind fun length =>
          (nodeLoop m dt_strings fuel (dt_struct + (length + 4) / 4 * 4) [] []).bind fun r =>
            nodeLoop m dt_strings fuel r.1 props (nodes ++ [⟨dt_struct, r.2.1, r.2.2⟩])
      else if token = fdtProp then
        (read32be m dt_struct).bind fun len => (read32be m (dt_struct + 4)).bind fun nameoff =>
          let dt_struct := dt_struct + 8
          -- The length is rounded in 32 bits.
          nodeLoop m dt_strings fuel (dt_struct + (len + 3) % 2 ^ 32 / 4 * 4)
            (props ++ [⟨dt_strings + nameoff, len, dt_struct⟩]) nodes
      else if token = fdtEnd ∨ token = fdtEndNode then some (dt_struct, props, nodes)
      else nodeLoop m dt_strings fuel dt_struct props nodes

def parseDeviceTreeNode (m : View) (dt_strings fuel dt_struct : ℕ) :
    Option (ℕ × List DeviceTreeProperty × List DeviceTreeNode) :=
  nodeLoop m dt_strings fuel dt_struct [] []

/-- A tree with the texts of its names and the values of its properties. -/
inductive Tree where
  | mk (name : List UInt8) (props : List (List UInt8 × List UInt8)) (nodes : List Tree)

/-- What follows `n` bytes up to the next multiple of four. -/
def IsPadding (n : ℕ) (padding : List UInt8) : Prop := padding.length = (4 - n % 4) % 4

/-- The tokens of what a node has, up to its end token. There may be nops in front of every token. -/
inductive Flattened (strings : List UInt8) :
    ℕ → List (List UInt8 × List UInt8) → List Tree → List UInt8 → Prop
  | last (e : ℕ) : Flattened strings e [] [] (bytes32be e)
  | nop {e : ℕ} {ps : List (List UInt8 × List UInt8)} {ts : List Tree} {bs : List UInt8}
      (hrest : Flattened strings e ps ts bs) : Flattened strings e ps ts (bytes32be fdtNop ++ bs)
  | prop {e nameoff : ℕ} {name value padding bs : List UInt8} {ps : List (List UInt8 × List UInt8)} {ts : List Tree}
      (hname : name ++ [0] <+: strings.drop nameoff) (hpadding : IsPadding value.length padding)
      (hrest : Flattened strings e ps ts bs) :
      Flattened strings e ((name, value) :: ps) ts
        (bytes32be fdtProp ++ (bytes32be value.length ++ (bytes32be nameoff ++ (value ++ (padding ++ bs)))))
  | node {e : ℕ} {name padding inner bs : List UInt8} {ps : List (List UInt8 × List UInt8)} {ts us : List Tree}
      (hname : 0 ∉ name) (hpadding : IsPadding (name.length + 1) padding)
      (hinner : Flattened strings fdtEndNode ps ts inner) (hrest : Flattened strings e [] us bs) :
      Flattened strings e [] (⟨name, ps, ts⟩ :: us)
        (bytes32be fdtBeginNode ++ ((name ++ [0]) ++ (padding ++ (inner ++ bs))))

def flattenRegions (regions : List ReservedMemory) : List UInt8 :=
  (regions.flatMap fun region => bytes64be region.addr ++ bytes64be region.size) ++ (bytes64be 0 ++ bytes64be 0)

def PropertyRepresents (m : View) (prop : DeviceTreeProperty) (p : List UInt8 × List UInt8) : Prop :=
  Holds m prop.name (p.1 ++ [0]) ∧ prop.len = p.2.length ∧ Holds m prop.value p.2

/-- A node that points to the parts of a tree, with the same properties and children in the same order. -/
inductive Represents (m : View) : DeviceTreeNode → Tree → Prop
  | mk {name : ℕ} {text : List UInt8} {props : List DeviceTreeProperty} {nodes : List DeviceTreeNode}
      {ps : List (List UInt8 × List UInt8)} {ts : List Tree} (hname : Holds m name (text ++ [0]))
      (hprops : List.Forall₂ (PropertyRepresents m) props ps) (hnodes : List.Forall₂ (Represents m) nodes ts) :
      Represents m ⟨name, props, nodes⟩ ⟨text, ps, ts⟩

section
variable {m : View} {p dt_strings fuel : ℕ} {strings bs : List UInt8}

theorem padded_length {n : ℕ} {padding : List UInt8} (h : IsPadding n padding) : n + padding.length = (n + 3) / 4 * 4 := by
  unfold IsPadding at h
  omega

theorem holds_node {name padding inner : List UInt8}
    (h : Holds m p (bytes32be fdtBeginNode ++ ((name ++ [0]) ++ (padding ++ (inner ++ bs))))) :
    Holds m p (bytes32be fdtBeginNode) ∧ Holds m (p + 4) (name ++ [0]) ∧
      Holds m (p + 4 + (name.length + 1) + padding.length) inner ∧
      Holds m (p + 4 + (name.length + 1) + padding.length + inner.length) bs := by
  obtain ⟨htoken, h⟩ := holds_append.mp h
  obtain ⟨hname, h⟩ := holds_append.mp h
  obtain ⟨-, h⟩ := holds_append.mp h
  obtain ⟨hinner, hrest⟩ := holds_append.mp h
  rw [bytes32be_length] at hname
  rw [bytes32be_length, List.length_append, List.length_singleton] at hinner hrest
  exact ⟨htoken, hname, hinner, hrest⟩

/-- The nodes and properties that a parse adds. They are the same for every memory that holds the bytes. -/
theorem nodeLoop_flattened {e : ℕ} {ps : List (List UInt8 × List UInt8)} {ts : List Tree}
    (h : Flattened strings e ps ts bs) (he : e = fdtEnd ∨ e = fdtEndNode) (hsize : bs.length < 2 ^ 32)
    (hstrings : strings.length ≤ 2 ^ 32) (p dt_strings : ℕ) :
    ∃ props nodes, (∀ m fuel before children, Holds m p bs → bs.length ≤ fuel →
        nodeLoop m dt_strings fuel p before children = some (p + bs.length, before ++ props, children ++ nodes)) ∧
      ∀ m, Holds m p bs → Holds m dt_strings strings →
        List.Forall₂ (PropertyRepresents m) props ps ∧ List.Forall₂ (Represents m) nodes ts := by
  induction h generalizing p with
  | last e =>
    refine ⟨[], [], fun m fuel before children hm hfuel => ?_, fun _ _ _ => ⟨.nil, .nil⟩⟩
    have hlt : e < 2 ^ 32 := by rcases he with rfl | rfl <;> decide
    obtain ⟨fuel, rfl⟩ := Nat.exists_eq_add_of_lt (show 0 < fuel by simp at hfuel; omega)
    have hbegin : e ≠ fdtBeginNode ∧ e ≠ fdtProp := by rcases he with rfl | rfl <;> decide
    unfold nodeLoop
    rw [hm.read32be hlt, Option.bind_some]
    dsimp only
    rw [if_neg hbegin.1, if_neg hbegin.2, if_pos he, List.append_nil, List.append_nil]
    rfl
  | @nop e ps ts bs hrest ih =>
    rw [List.length_append, bytes32be_length] at hsize
    obtain ⟨props, nodes, hparse, hrep⟩ := ih he (by omega) (p + 4)
    refine ⟨props, nodes, fun m fuel before children hm hfuel => ?_, fun m hm hs => hrep m (holds_append.mp hm).2 hs⟩
    rw [List.length_append, bytes32be_length] at hfuel ⊢
    obtain ⟨fuel, rfl⟩ := Nat.exists_eq_add_of_lt (show 0 < fuel by omega)
    obtain ⟨htoken, hm⟩ := holds_append.mp hm
    unfold nodeLoop
    rw [htoken.read32be (by decide), Option.bind_some]
    dsimp only
    rw [if_neg (by decide), if_neg (by decide), if_neg (by decide), ← Nat.add_assoc]
    exact hparse m _ before children hm (by omega)
  | @prop e nameoff name value padding bs ps ts hname hpadding hrest ih =>
    simp only [List.length_append, bytes32be_length] at hsize
    have hpadded := padded_length hpadding
    have hoff : nameoff < strings.length := by
      have hle := hname.length_le
      simp only [List.length_append, List.length_singleton, List.length_drop] at hle
      omega
    obtain ⟨props, nodes, hparse, hrep⟩ := ih he (by omega) (p + 12 + value.length + padding.length)
    refine ⟨⟨dt_strings + nameoff, value.length, p + 12⟩ :: props, nodes, fun m fuel before children hm hfuel => ?_,
      fun m hm hs => ?_⟩
    · simp only [List.length_append, bytes32be_length] at hfuel ⊢
      obtain ⟨fuel, rfl⟩ := Nat.exists_eq_add_of_lt (show 0 < fuel by omega)
      simp only [holds_append, bytes32be_length] at hm
      obtain ⟨htoken, hlen, hnameoff, -, -, hm⟩ := hm
      unfold nodeLoop
      rw [htoken.read32be (by decide), Option.bind_some]
      dsimp only
      rw [if_neg (by decide), if_pos rfl, hlen.read32be (by omega), hnameoff.read32be (by omega), Option.bind_some,
        Option.bind_some, Nat.mod_eq_of_lt (show value.length + 3 < 2 ^ 32 by omega), ← hpadded,
        show p + 4 + 8 + (value.length + padding.length) = p + 12 + value.length + padding.length by omega]
      have hnext := hparse m (0 + fuel) (before ++ [⟨dt_strings + nameoff, value.length, p + 12⟩]) children hm (by omega)
      rw [List.append_assoc, show p + 12 + value.length + padding.length + bs.length =
        p + (4 + (4 + (4 + (value.length + (padding.length + bs.length))))) by omega] at hnext
      exact hnext
    · simp only [holds_append, bytes32be_length] at hm
      obtain ⟨-, -, -, hvalue, -, hm⟩ := hm
      obtain ⟨hprops, hnodes⟩ := hrep m hm hs
      exact ⟨.cons ⟨hs.of_prefix_drop hname hoff.le, rfl, hvalue⟩ hprops, hnodes⟩
  | @node e name padding inner bs ps ts us hname hpadding hinner hrest ihinner ihrest =>
    simp only [List.length_append, bytes32be_length, List.length_singleton] at hsize
    have hpadded := padded_length hpadding
    obtain ⟨props, nodes, hparse, hrep⟩ := ihinner (.inr rfl) (by omega) (p + 4 + (name.length + 1) + padding.length)
    obtain ⟨props', nodes', hparse', hrep'⟩ := ihrest he (by omega) (p + 4 + (name.length + 1) + padding.length + inner.length)
    refine ⟨props', ⟨p + 4, props, nodes⟩ :: nodes', fun m fuel before children hm hfuel => ?_, fun m hm hs => ?_⟩
    · simp only [List.length_append, bytes32be_length, List.length_singleton] at hfuel ⊢
      obtain ⟨fuel, rfl⟩ := Nat.exists_eq_add_of_lt (show 0 < fuel by omega)
      obtain ⟨htoken, htext, hm, hm'⟩ := holds_node hm
      have hchild := hparse m (0 + fuel) [] [] hm (by omega)
      have hnext := hparse' m (0 + fuel) before (children ++ [⟨p + 4, props, nodes⟩]) hm' (by omega)
      rw [List.append_assoc, show p + 4 + (name.length + 1) + padding.length + inner.length + bs.length =
        p + (4 + (name.length + 1 + (padding.length + (inner.length + bs.length)))) by omega] at hnext
      unfold nodeLoop
      rw [htoken.read32be (by decide), Option.bind_some]
      dsimp only
      rw [if_pos rfl, htext.strlen hname (by omega), Option.bind_some, ← hpadded, ← Nat.add_assoc, hchild, Option.bind_some]
      exact hnext
    · obtain ⟨-, htext, hm, hm'⟩ := holds_node hm
      obtain ⟨hprops, hnodes⟩ := hrep m hm hs
      obtain ⟨hprops', hnodes'⟩ := hrep' m hm' hs
      exact ⟨hprops', .cons (.mk htext hprops hnodes) hnodes'⟩

theorem reservedLoop_flattened {regions before : List ReservedMemory}
    (hregions : ∀ region ∈ regions, region.addr < 2 ^ 64 ∧ region.size < 2 ^ 64 ∧ (region.addr ≠ 0 ∨ region.size ≠ 0))
    (hm : Holds m p (flattenRegions regions)) (hfuel : regions.length < fuel) :
    reservedLoop m fuel p before = some (before ++ regions) := by
  induction regions generalizing p fuel before with
  | nil =>
    obtain ⟨fuel, rfl⟩ := Nat.exists_eq_add_of_lt hfuel
    obtain ⟨haddr, hsize⟩ := holds_append.mp (show Holds m p (bytes64be 0 ++ bytes64be 0) from hm)
    rw [bytes64be_length] at hsize
    unfold reservedLoop
    rw [haddr.read64be (by decide), hsize.read64be (by decide), List.append_nil]
    rfl
  | cons region regions ih =>
    obtain ⟨fuel, rfl⟩ := Nat.exists_eq_add_of_lt hfuel
    obtain ⟨hlt, hlt', hne⟩ := hregions region List.mem_cons_self
    have hsplit : flattenRegions (region :: regions) =
        (bytes64be region.addr ++ bytes64be region.size) ++ flattenRegions regions := by
      rw [flattenRegions, flattenRegions, List.flatMap_cons, List.append_assoc]
    rw [hsplit] at hm
    obtain ⟨hregion, hrest⟩ := holds_append.mp hm
    obtain ⟨haddr, hsize⟩ := holds_append.mp hregion
    rw [List.length_append, bytes64be_length, bytes64be_length] at hrest
    rw [bytes64be_length] at hsize
    unfold reservedLoop
    rw [haddr.read64be hlt, hsize.read64be hlt', Option.bind_some, Option.bind_some, if_pos hne,
      ih (fun r hr => hregions r (List.mem_cons_of_mem _ hr)) hrest (by rw [List.length_cons]; omega), List.append_assoc]
    rfl

/-- Parsing undoes flattening. The same nodes come from every memory that holds the encoding, be it all that can be read. -/
theorem parse_flattened {e : ℕ} {ps : List (List UInt8 × List UInt8)} {ts : List Tree} {regions : List ReservedMemory}
    (h : Flattened strings e ps ts bs) (he : e = fdtEnd ∨ e = fdtEndNode) (hsize : bs.length < 2 ^ 32)
    (hstrings : strings.length ≤ 2 ^ 32)
    (hregions : ∀ region ∈ regions, region.addr < 2 ^ 64 ∧ region.size < 2 ^ 64 ∧ (region.addr ≠ 0 ∨ region.size ≠ 0))
    (dt_struct dt_strings : ℕ) :
    (∃ props nodes, (∀ m fuel, Holds m dt_struct bs → bs.length ≤ fuel →
        parseDeviceTreeNode m dt_strings fuel dt_struct = some (dt_struct + bs.length, props, nodes)) ∧
      ∀ m, Holds m dt_struct bs → Holds m dt_strings strings →
        List.Forall₂ (PropertyRepresents m) props ps ∧ List.Forall₂ (Represents m) nodes ts) ∧
    ∀ m mem_rsvmap fuel, Holds m mem_rsvmap (flattenRegions regions) → regions.length < fuel →
      parseReservedMemoryRegions m fuel mem_rsvmap = some regions := by
  obtain ⟨props, nodes, hparse, hrep⟩ := nodeLoop_flattened h he hsize hstrings dt_struct dt_strings
  refine ⟨⟨props, nodes, fun m fuel hm hfuel => hparse m fuel [] [] hm hfuel, hrep⟩, fun m mem_rsvmap fuel hm hfuel => ?_⟩
  exact reservedLoop_flattened hregions hm hfuel

theorem flattened_node : Flattened [0x61, 0] fdtEnd [] [⟨[0x62], [([0x61], [1, 2, 3])], []⟩]
    (bytes32be fdtNop ++ (bytes32be fdtBeginNode ++ (([0x62] ++ [0]) ++ ([0, 0] ++ ((bytes32be fdtProp ++ (bytes32be 3 ++
      (bytes32be 0 ++ ([1, 2, 3] ++ ([0] ++ bytes32be fdtEndNode))))) ++ bytes32be fdtEnd))))) :=
  .nop (.node (by decide) rfl (.prop ⟨[], rfl⟩ rfl (.last _)) (.last _))

theorem parse_flattened_node : ∃ bs props nodes,
    parseDeviceTreeNode (only 0 bs) 100 bs.length 0 = some (0 + bs.length, props, nodes) ∧
    parseReservedMemoryRegions (only 0 (flattenRegions [⟨0x80000000, 0x1000⟩])) 2 0 = some [⟨0x80000000, 0x1000⟩] := by
  obtain ⟨⟨props, nodes, hparse, -⟩, hregions⟩ := @parse_flattened _ _ _ _ _ [⟨0x80000000, 0x1000⟩] flattened_node
    (.inl rfl) (by decide) (by decide) (by decide) 0 100
  exact ⟨_, props, nodes, hparse _ _ holds_only le_rfl, hregions _ 0 2 holds_only (by decide)⟩

end

end SomeOs.Devices
