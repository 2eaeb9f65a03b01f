import Mathlib
import NeuralFlow.Proofs.Json.QuickFormat
import NeuralFlow.Proofs.Json.Record
import NeuralFlow.Proofs.Network

/-! Networks survive their text, whether simple or not. So every network of finite numbers is the network
of some text, and one with a link that leaves it is read but has no matrices. -/

namespace NeuralFlow

open Json EdgeMatrix LawfulBacking

variable {format : NumberFormat}

namespace Link

theorem Field.mem_all (f : Field) : f ∈
    [src, dst, capacity, length, freeFlowTime, b, power, speedLimit, toll, linkType] := by
  cases f <;> decide

theorem Field.plain_name (f : Field) : Plain f.name.toList := by cases f <;> simp [Plain, name]

def singles (link : Link Float32) : List Float32 :=
  [link.capacity, link.length, link.freeFlowTime, link.b, link.power, link.speedLimit, link.toll]

structure Readable (format : NumberFormat) (link : Link Float32) : Prop where
  src_lt : link.src < UInt64.size
  dst_lt : link.dst < UInt64.size
  singles : ∀ x ∈ link.singles, Rereads format x x

variable {link : Link Float32}

theorem Readable.field (h : link.Readable format) (f : Field) :
    Reads (f.read format) (f.write format (f.get link)).compactChars (f.get link) ∧
      Solid (f.write format (f.get link)).compactChars := by
  have hsingles := h.singles
  simp only [Link.singles, List.forall_mem_cons] at hsingles
  obtain ⟨hcapacity, hlength, htime, hb, hpower, hspeed, htoll, -⟩ := hsingles
  cases f with
  | src => exact ⟨reads_nat _ h.src_lt h.src_lt, solid_digits _⟩
  | dst => exact ⟨reads_nat _ h.dst_lt h.dst_lt, solid_digits _⟩
  | capacity => exact ⟨hcapacity.reads, hcapacity.solid⟩
  | length => exact ⟨hlength.reads, hlength.solid⟩
  | freeFlowTime => exact ⟨htime.reads, htime.solid⟩
  | b => exact ⟨hb.reads, hb.solid⟩
  | power => exact ⟨hpower.reads, hpower.solid⟩
  | speedLimit => exact ⟨hspeed.reads, hspeed.solid⟩
  | toll => exact ⟨htoll.reads, htoll.solid⟩
  | linkType => exact ⟨reads_code _, solid_digits _⟩

theorem Readable.faithful (h : link.Readable format) : (schema format).Faithful
    (fun f => ((schema format).write f ((schema format).get link f)).compactChars) link where
  ne_nil := List.cons_ne_nil _ _
  complete := Field.mem_all
  plain := Field.plain_name
  distinct := (by decide +kernel : ((schema .quick).fields.map Field.name).Nodup)
  build_get := rfl
  reads f := (h.field f).1
  solid f := (h.field f).2

theorem Readable.reads_tree (h : link.Readable format) :
    Reads ((schema format).readRecord format) ((schema format).tree link).compactChars link := by
  rw [Schema.compactChars_tree]
  exact h.faithful.reads_record format blank_nil blank_nil blank_nil

theorem solid_tree (format : NumberFormat) (link : Link Float32) :
    Solid ((schema format).tree link).compactChars := by
  rw [Schema.compactChars_tree]
  exact Schema.solid_recordChars ..

end Link

namespace Network

theorem Field.mem_all (f : Field) : f ∈ [nodes, links] := by cases f <;> decide

/-- A network whose indices are words and whose numbers are read back. -/
structure Readable (format : NumberFormat) (network : Network Float32) : Prop where
  nodes_lt : network.nodes < UInt64.size
  links : ∀ link ∈ network.links, link.Readable format

variable {network : Network Float32}

theorem Readable.faithful (h : network.Readable format) : (schema format).Faithful
    (fun f => ((schema format).write f ((schema format).get network f)).compactChars) network where
  ne_nil := List.cons_ne_nil _ _
  complete := Field.mem_all
  plain f := by cases f <;> simp [Plain, schema]
  distinct := (by decide +kernel : ["num_nodes", "edges"].Nodup)
  build_get := rfl
  reads
    | .nodes => reads_nat _ h.nodes_lt h.nodes_lt
    | .links => by
      change Reads _ (Tree.list (network.links.map (Link.schema format).tree)).compactChars _
      rw [Tree.compactChars_list, List.map_map]
      exact reads_list blank_nil blank_nil (fun link hlink => (h.links link hlink).reads_tree)
        fun link _ => Link.solid_tree format link
  solid
    | .nodes => solid_digits _
    | .links => by
      change Solid (Tree.list (network.links.map (Link.schema format).tree)).compactChars
      rw [Tree.compactChars_list]
      exact solid_list _ _ _

/-- A network is read back from its text. -/
theorem Readable.origin (h : network.Readable format) :
    (Origin.text (network.render format)).network format = .ok network := by
  have hread := h.faithful.parse format blank_nil blank_nil blank_nil
  rw [← Schema.compactChars_tree] at hread
  rw [Origin.network, parse, render, Tree.compact, hread]

/-- In the quick format all networks of finite numbers are read back. -/
theorem readable_quick (hnodes : network.nodes < UInt64.size)
    (hends : ∀ link ∈ network.links, link.src < UInt64.size ∧ link.dst < UInt64.size)
    (hfinite : ∀ link ∈ network.links, ∀ x ∈ link.singles, x.isFinite = true) :
    network.Readable .quick where
  nodes_lt := hnodes
  links link hlink :=
    ⟨(hends link hlink).1, (hends link hlink).2, fun x hx => rereads_quick (hfinite link hlink x hx)⟩

variable {M : Type → Type} [EdgeMatrix M] [LawfulBacking M]

/-- A link that leaves the network is read as well, and there is no matrix with it. -/
theorem Readable.outside (h : network.Readable format) {link : Link Float32}
    (hlink : link ∈ network.links) (hout : ¬ (link.src < network.nodes ∧ link.dst < network.nodes)) :
    (Origin.text (network.render format)).network format = .ok network ∧
      (∃ e, (network.adjacency : Outcome Float32 (M Float32)) = .error e) ∧
      ∃ e, (network.capacities : Outcome Float32 (M Float32)) = .error e := by
  have hmatrix (value : Link Float32 → Float32) : ∃ e, (ofEdges network.nodes
      (network.links.map fun link => ⟨link.src, link.dst, value link⟩) :
        Outcome Float32 (M Float32)) = .error e := by
    refine ofEdges_error fun hfits => hout ?_
    obtain ⟨hsrc, hdst, -⟩ := hfits _ (List.mem_map_of_mem hlink)
    exact ⟨hsrc, hdst⟩
  exact ⟨h.origin, hmatrix fun _ => 1, hmatrix Link.capacity⟩

example : (Origin.text "[2,[[0,5,1]]]").network .quick = .ok ⟨2, [.withCapacity 0 5 1]⟩ := rfl

end Network

end NeuralFlow
