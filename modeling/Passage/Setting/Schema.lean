/-!
# The schema of settings

The settings that rules may read while they are compiled, with the type that
each one is read as.
-/

namespace Passage

/-- What the value of a setting is read as. -/
inductive SettingType where
  | string | number | boolean
deriving DecidableEq, Repr, Inhabited

namespace SettingType

def name : SettingType → String
  | .string => "string"
  | .number => "number"
  | .boolean => "boolean"

def stringSettings : List String :=
  ["logic_rules", "reachable_locations", "lacs_condition", "bridge", "shuffle_ganon_bosskey",
   "open_forest", "open_kakariko", "zora_fountain", "gerudo_fortress", "shuffle_scrubs",
   "shuffle_pots", "shuffle_crates", "shuffle_dungeon_rewards", "shuffle_tcgkeys", "hints",
   "damage_multiplier", "deadly_bonks", "shuffle_gerudo_fortress_heart_piece"]

def numberSettings : List String :=
  ["triforce_count_per_world", "triforce_goal_per_world", "lacs_medallions", "lacs_stones",
   "lacs_rewards", "lacs_tokens", "lacs_hearts", "bridge_medallions", "bridge_stones",
   "bridge_rewards", "bridge_tokens", "bridge_hearts", "trials", "ganon_bosskey_medallions",
   "ganon_bosskey_stones", "ganon_bosskey_rewards", "ganon_bosskey_tokens",
   "ganon_bosskey_hearts", "chicken_count", "big_poe_count"]

def booleanSettings : List String :=
  ["adult_trade_shuffle", "blue_fire_arrows", "chicken_count_random", "clearer_hints",
   "complete_mask_quest", "disable_trade_revert", "easier_fire_arrow_entry",
   "enhance_map_compass", "fast_chests", "fix_broken_drops", "free_bombchu_drops",
   "free_scarecrow", "keyring_give_bk", "no_collectible_hearts", "no_epona_race",
   "no_escape_sequence", "no_guard_stealth", "one_item_per_dungeon", "open_door_of_time",
   "owl_drops", "plant_beans", "ruto_already_f1_jabu", "shuffle_beans", "shuffle_beehives",
   "shuffle_cows", "shuffle_empty_crates", "shuffle_empty_pots", "shuffle_expensive_merchants",
   "shuffle_frog_song_rupees", "shuffle_ganon_tower", "shuffle_gerudo_card",
   "shuffle_gerudo_valley_river_exit", "shuffle_grotto_entrances", "shuffle_hideout_entrances",
   "shuffle_individual_ocarina_notes", "shuffle_interior_entrances", "shuffle_kokiri_sword",
   "shuffle_ocarinas", "shuffle_overworld_entrances", "shuffle_silver_rupees",
   "shuffle_wonderitems", "skip_child_zelda", "skip_reward_from_rauru",
   "skip_some_minigame_phases", "start_with_consumables", "start_with_rupees",
   "tcg_requires_lens", "trials_random", "triforce_hunt", "useful_cutscenes", "warp_songs"]

/-- All settings with their types, in order. -/
def schema : List (String × SettingType) :=
  stringSettings.map (·, .string) ++ numberSettings.map (·, .number) ++
    booleanSettings.map (·, .boolean)

/-- The type that a setting is read as, if rules may read it. -/
def ofName? (name : String) : Option SettingType := schema.lookup name

end SettingType

end Passage
