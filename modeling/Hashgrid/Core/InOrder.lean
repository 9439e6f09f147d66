import Hashgrid.Core.Colors
import Hashgrid.Core.PendingTrans
import Hashgrid.Core.SeeSound
import Hashgrid.Core.SelfWalk
import Hashgrid.Core.TableRange

/-!
# Graphs in order

What the searches of `core/round.go` rely on: pointers that lead somewhere, numbers in
range, and vertices with round numbers and colours.
-/

namespace Hashgrid.Core

open Hashgrid.Bytes Hashgrid.Machine Hashgrid.Links

namespace JPGraph

/-- A graph whose links lead to vertices and whose numbers are in range, as searches find it. -/
structure Bounded (jp : JPGraph) : Prop where
  /-- Links lead to vertices. -/
  links : ∀ v < jp.verts.next, ∀ w ∈ jp.parents v, w < jp.verts.next
  /-- All numbers are in range. -/
  numbers : jp.NumbersBelow jp.broadness

variable {jp : JPGraph} {a : Address} {c : ℕ} {jp' : JPGraph}

/-- Colours do not change links and numbers. -/
theorem Bounded.colors (h : jp.Bounded) (hcolors : SameButColors jp jp') : jp'.Bounded where
  links v hv w hw := by
    rw [hcolors.next] at hv ⊢
    exact h.links v hv w (hcolors.parents v ▸ hw)
  numbers := by
    have hbroadness : jp'.broadness = jp.broadness := by rw [hcolors.rest]
    rw [hbroadness]
    exact h.numbers.colors hcolors

/-- What searches rely on: columns and links are in order, the columns are numbered, and every
vertex has a round number and colours. -/
structure InOrder (jp : JPGraph) : Prop where
  /-- Columns and links. -/
  linked : Site.Linked jp
  /-- Numbers. -/
  numbered : jp.Numbered
  /-- Round numbers. -/
  ready : jp.Ready
  /-- Colours. -/
  colored : jp.Colored

theorem InOrder.verTop_lt (h : jp.InOrder) (hc : jp.graph.lookup a = some c) (v : ℕ)
    (hv : (jp.col c).verTop = some v) : v < jp.verts.next := by
  have htop : jp.links.top a = some v := by simp only [links, hc, Option.bind_some, hv]
  exact length_nodes_links jp ▸ h.linked.sound.top a v htop

/-- The hashes of a column lead to vertices. -/
theorem InOrder.hashNext_lt (h : jp.InOrder) (hc : jp.graph.lookup a = some c) (v w : ℕ)
    (hw : jp.hashNext c v = some w) : w < jp.verts.next := by
  have hchain : jp.links.chain a (jp.vert v).event.selfPart = some w := by
    simp only [links, hc, Option.bind_some]
    exact hw
  exact length_nodes_links jp ▸ h.linked.columnar.lt_of_chain hchain

/-- Links lead to vertices, and numbers are below the number of columns. -/
theorem InOrder.bounded (h : jp.InOrder) (hbroadness : jp.broadness = jp.size) : jp.Bounded where
  links v hv w hw := by
    rw [← length_nodes_links jp]
    rcases mem_parents.mp hw with hself | hanother
    · obtain ⟨k, hk⟩ := h.linked.columnar.selfPt (nodes_links_of_lt hv) hself
      exact h.linked.columnar.lt_of_chain hk
    · obtain ⟨-, m, -, hm, -⟩ := h.linked.sound.anotherPt v w hanother
      exact LinkGraph.lt_of_nodes hm
  numbers := by
    rw [hbroadness]
    exact h.numbered.below h.linked

/-- Painting leaves everything in order. -/
theorem InOrder.painted {cluster : ℕ} (h : jp.InOrder) (hpainted : Painted cluster jp jp') :
    jp'.InOrder := by
  have hcolors := hpainted.sameButColors
  have halike := hcolors.alike
  have hlinks := hcolors.rests.links
  have hlinked := h.linked
  refine ⟨⟨?_, ?_, ?_, ?_, ?_⟩, halike.numbered h.numbered, ?_, h.colored.congr hpainted.palettes⟩
  · exact hlinked.wf.congr halike.graph (by rw [hcolors.rest])
  · exact hlinks ▸ hlinked.sound
  · exact hlinks ▸ hlinked.columnar
  · exact hlinks ▸ hlinked.waiting
  · rw [halike.rounds]
    exact hlinked.queue
  · refine h.ready.congr (by rw [hcolors.rest]) (fun b c hb => halike.graph ▸ hb) fun v hv => ?_
    exact .inr ⟨hcolors.next ▸ hv, halike.event v⟩

end JPGraph

end Hashgrid.Core
