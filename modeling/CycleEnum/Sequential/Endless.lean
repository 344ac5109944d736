import CycleEnum.Sequential.Johnson
import CycleEnum.Sequential.ReadTarjan
import CycleEnum.Sequential.TemporalJohnson
import CycleEnum.Sequential.TemporalReadTarjan

namespace CycleEnum.Sequential

-- From 2^32 vertices on the loop over the roots never ends, so no counter returns a
-- histogram.
variable {graph : GraphView} {cap : Option Nat} {width : Int} (hcount : 2 ^ 32 ≤ graph.vertex_count)

theorem histogram_eq_ok {search : Search Unit} {histogram : CycleHistogram}
    (h : search.histogram = .ok histogram) : ∃ result, search ∅ = .ok result := by
  unfold Search.histogram at h
  cases hsearch : search ∅ with
  | error error =>
      rw [hsearch] at h
      cases h
  | ok result => exact ⟨result, rfl⟩

include hcount

theorem for_each_start_endless (visit : Nat → AdjacencyEntry → Int → Search Unit)
    (histogram : CycleHistogram) : (for_each_start graph visit).histogram ≠ .ok histogram := by
  intro h
  obtain ⟨result, hresult⟩ := histogram_eq_ok h
  exact for_each_root_endless hcount _ _ _ _ hresult

theorem count_simple_cycles_bruteforce_endless (histogram : CycleHistogram) :
    count_simple_cycles_bruteforce graph cap ≠ .ok histogram := by
  intro h
  obtain ⟨-, -, hrun⟩ := bind_ok h
  obtain ⟨result, hresult⟩ := histogram_eq_ok hrun
  obtain ⟨flags, hloop, -⟩ := bind_ok hresult
  exact for_each_root_endless hcount _ _ _ _ hloop

theorem count_simple_cycles_johnson_endless (histogram : CycleHistogram) :
    count_simple_cycles_johnson graph cap ≠ .ok histogram := by
  intro h
  obtain ⟨-, -, hrun⟩ := bind_ok h
  obtain ⟨result, hresult⟩ := histogram_eq_ok hrun
  exact for_each_root_endless hcount _ _ _ _ hresult

theorem count_simple_cycles_read_tarjan_endless (histogram : CycleHistogram) :
    count_simple_cycles_read_tarjan graph cap ≠ .ok histogram := by
  intro h
  obtain ⟨-, -, hrun⟩ := bind_ok h
  obtain ⟨result, hresult⟩ := histogram_eq_ok hrun
  exact for_each_root_endless hcount _ _ _ _ hresult

theorem count_time_window_cycles_bruteforce_endless (histogram : CycleHistogram) :
    count_time_window_cycles_bruteforce graph width cap ≠ .ok histogram := by
  intro h
  obtain ⟨-, -, hrest⟩ := bind_ok h
  obtain ⟨-, -, hrun⟩ := bind_ok hrest
  exact for_each_start_endless hcount _ _ hrun

theorem count_time_window_cycles_johnson_endless (histogram : CycleHistogram) :
    count_time_window_cycles_johnson graph width cap ≠ .ok histogram := by
  intro h
  obtain ⟨-, -, hrun⟩ := bind_ok h
  exact for_each_start_endless hcount _ _ hrun

theorem count_time_window_cycles_read_tarjan_endless (histogram : CycleHistogram) :
    count_time_window_cycles_read_tarjan graph width cap ≠ .ok histogram := by
  intro h
  obtain ⟨-, -, hrun⟩ := bind_ok h
  exact for_each_start_endless hcount _ _ hrun

theorem count_temporal_cycles_bruteforce_endless (histogram : CycleHistogram) :
    count_temporal_cycles_bruteforce graph width cap ≠ .ok histogram := by
  intro h
  obtain ⟨-, -, hrest⟩ := bind_ok h
  obtain ⟨-, -, hrun⟩ := bind_ok hrest
  exact for_each_start_endless hcount _ _ hrun

theorem count_temporal_cycles_read_tarjan_endless (histogram : CycleHistogram) :
    count_temporal_cycles_read_tarjan graph width cap ≠ .ok histogram := by
  intro h
  obtain ⟨-, -, hrest⟩ := bind_ok h
  obtain ⟨-, -, hrun⟩ := bind_ok hrest
  exact for_each_start_endless hcount _ _ hrun

theorem count_temporal_cycles_johnson_with_stats_endless (result : TemporalJohnsonResult) :
    count_temporal_cycles_johnson_with_stats graph width cap ≠ .ok result := by
  intro h
  obtain ⟨-, -, hrest⟩ := bind_ok h
  obtain ⟨-, -, hrun⟩ := bind_ok hrest
  obtain ⟨last, hlast, -⟩ := bind_ok hrun
  exact for_each_root_endless hcount _ _ _ _ hlast

theorem count_temporal_cycles_johnson_endless (histogram : CycleHistogram) :
    count_temporal_cycles_johnson graph width cap ≠ .ok histogram := by
  intro h
  obtain ⟨result, hresult, -⟩ := bind_ok h
  exact count_temporal_cycles_johnson_with_stats_endless hcount result hresult

end CycleEnum.Sequential
