/-! # Built-in procedures

The opcodes that an engine offers to every script.  Code names one by its place
in `all`.  A script's own symbol of the same name comes first; letter case does
not count.  Main statement: the built-in found for a name has that name up to
case.
-/

namespace SslFrontend

structure Builtin where
  name : String
  minArgs : Nat
  maxArgs : Nat
deriving DecidableEq, Repr

namespace Builtin

def accepts (b : Builtin) (count : Nat) : Bool := b.minArgs ≤ count && count ≤ b.maxArgs

/-- A built-in with a fixed number of arguments. -/
def fixed (name : String) (count : Nat) : Builtin := ⟨name, count, count⟩

def all : List Builtin :=
  [fixed "display_msg" 1, fixed "debug_msg" 1, ⟨"float_msg", 2, 3⟩, fixed "message_str" 2,
    fixed "obj_name" 1, fixed "global_var" 1, fixed "set_global_var" 2, fixed "map_var" 1,
    fixed "set_map_var" 2, fixed "local_var" 1, fixed "set_local_var" 2, fixed "export_var" 2,
    fixed "game_time" 0, fixed "game_time_hour" 0, fixed "game_ticks" 1, fixed "random" 2,
    fixed "add_timer_event" 3, ⟨"rm_timer_event", 1, 2⟩, fixed "self_obj" 0,
    fixed "source_obj" 0, fixed "target_obj" 0, fixed "dude_obj" 0, fixed "fixed_param" 0,
    fixed "script_action" 0, fixed "script_overrides" 0, fixed "create_object_sid" 4,
    fixed "destroy_object" 1, fixed "obj_pid" 1, fixed "obj_type" 1, fixed "obj_is_open" 1,
    fixed "obj_open" 1, fixed "obj_close" 1, fixed "obj_is_locked" 1, fixed "obj_lock" 1,
    fixed "obj_unlock" 1, fixed "tile_num" 1, fixed "elevation" 1, fixed "move_to" 3,
    fixed "tile_distance_objs" 2, fixed "obj_can_see_obj" 2, fixed "get_critter_stat" 2,
    fixed "set_critter_stat" 3, fixed "critter_heal" 2, fixed "critter_dmg" 3,
    fixed "critter_attempt_placement" 3, fixed "has_skill" 2, fixed "is_critter_dead" 1,
    fixed "attack_complex" 8, fixed "add_obj_to_inven" 2, fixed "rm_obj_from_inven" 2,
    fixed "obj_carrying_pid_obj" 2, fixed "item_caps_total" 1, fixed "item_caps_adjust" 2,
    fixed "start_gdialog" 5, fixed "gsay_start" 0, fixed "gsay_end" 0, fixed "gsay_reply" 2,
    fixed "giq_option" 5, fixed "end_dialogue" 0, fixed "give_exp_points" 1,
    fixed "load_map" 2, fixed "play_sfx" 1, fixed "gfade_in" 1, fixed "gfade_out" 1,
    fixed "terminate_combat" 0, fixed "set_light_level" 1]

def get? (index : Nat) : Option Builtin := all[index]?

def sameName (a b : String) : Bool := a.toList.map Char.toLower == b.toList.map Char.toLower

def find? (name : String) : Option Nat := all.findIdx? fun b => sameName b.name name

theorem sameName_of_find? {name : String} {index : Nat} (h : find? name = some index) :
    ∃ b, get? index = some b ∧ sameName b.name name = true := by
  obtain ⟨hlt, hsame, _⟩ := List.findIdx?_eq_some_iff_getElem.mp h
  exact ⟨all[index], List.getElem?_eq_getElem hlt, hsame⟩

end Builtin

end SslFrontend
