import Swirly.Lib.BinarySearch
import Swirly.Fir.RestRequest

/-!
# Swirly.Fir.Generated

**The parser that runs.** The grammar of `RestRequest` is compiled to a machine that is
driven by tables: `parse` looks the byte up among the keys of its state, first those of one
byte and then the ranges, and the index of what it finds gives the state after it and the
list of its actions.

The tables are the generated ones. A read outside of a table is no value here, and so is a
state that has no row; whether a `char` is signed is a parameter, as the language leaves it
open.
-/

namespace Swirly

open Lib (searchList)

namespace Json

/-! ### Tables -/

/-- `_json_actions`. The lists of actions, each after its length. -/
def actions : List Nat :=
  [0, 1, 0, 1, 2, 1, 4, 1, 5, 1, 7, 1, 8, 1, 10, 1, 11, 1, 13, 1, 14, 1, 16, 1, 17, 1, 19, 1, 20,
    1, 21, 1, 22, 1, 23, 1, 24, 1, 26, 1, 27, 1, 28, 1, 29, 1, 30, 1, 31, 1, 32, 1, 33, 1, 34, 1,
    35, 1, 36, 1, 37, 1, 38, 1, 39, 1, 40, 1, 41, 1, 43, 2, 0, 1, 2, 0, 2, 2, 6, 3, 2, 9, 3, 2, 12,
    3, 2, 15, 3, 2, 18, 3, 2, 25, 3, 2, 42, 3]

/-- `_json_key_offsets`. Where the keys of a state begin. -/
def keyOffsets : List Nat :=
  [0, 0, 4, 9, 25, 29, 31, 33, 35, 36, 40, 45, 47, 52, 57, 61, 61, 62, 63, 64, 69, 71, 73, 74, 78,
    83, 85, 90, 90, 91, 92, 93, 98, 100, 102, 104, 106, 108, 110, 111, 115, 120, 122, 127, 127,
    128, 129, 130, 135, 139, 141, 143, 145, 146, 150, 155, 157, 162, 162, 163, 164, 165, 170, 172,
    174, 176, 178, 180, 182, 184, 186, 187, 191, 199, 201, 208, 209, 210, 211, 216, 218, 220, 222,
    223, 227, 235, 237, 244, 245, 246, 247, 252, 256, 258, 260, 262, 264, 266, 267, 271, 279, 281,
    288, 289, 290, 291, 296, 298, 300, 301, 305, 310, 312, 317, 317, 318, 319, 320, 325, 329, 331,
    332, 336, 341, 343, 348, 348, 349, 350, 351, 356, 358, 360, 361, 365, 370, 374, 376, 378, 380,
    382, 383, 388, 390, 392, 394, 396, 397, 402, 403, 404, 405, 410, 416, 418, 420, 422, 424, 426,
    428, 430, 431, 435, 443, 445, 452, 453, 454, 455, 460, 462, 464, 465, 469, 474, 478, 480, 482,
    483, 488, 490, 492, 494, 495, 500, 501, 502, 503, 508, 510, 512, 514, 515, 519, 527, 529, 536,
    537, 538, 539, 544, 548, 550, 552, 554, 555, 559, 567, 569, 576, 577, 578, 579, 584, 586, 588,
    590, 592, 593, 597, 602, 604, 609, 609, 610, 611, 612, 617]

/-- `_json_trans_keys`. The keys: for each state those of one byte, then the ends of its ranges. -/
def transKeys : List Nat :=
  [32, 123, 9, 13, 32, 34, 125, 9, 13, 67, 68, 69, 76, 77, 82, 83, 84, 99, 100, 101, 108, 109, 114,
    115, 116, 79, 80, 111, 112, 78, 110, 84, 116, 82, 114, 34, 32, 58, 9, 13, 32, 34, 110, 9, 13,
    34, 92, 32, 44, 125, 9, 13, 32, 44, 125, 9, 13, 32, 34, 9, 13, 117, 108, 108, 32, 44, 125, 9,
    13, 84, 116, 89, 121, 34, 32, 58, 9, 13, 32, 34, 110, 9, 13, 34, 92, 32, 44, 125, 9, 13, 117,
    108, 108, 32, 44, 125, 9, 13, 73, 105, 83, 115, 80, 112, 76, 108, 65, 97, 89, 121, 34, 32, 58,
    9, 13, 32, 34, 110, 9, 13, 34, 92, 32, 44, 125, 9, 13, 117, 108, 108, 32, 44, 125, 9, 13, 77,
    88, 109, 120, 65, 97, 73, 105, 76, 108, 34, 32, 58, 9, 13, 32, 34, 110, 9, 13, 34, 92, 32, 44,
    125, 9, 13, 117, 108, 108, 32, 44, 125, 9, 13, 80, 112, 73, 105, 82, 114, 89, 121, 68, 100, 65,
    97, 84, 116, 69, 101, 34, 32, 58, 9, 13, 32, 43, 45, 110, 9, 13, 48, 57, 48, 57, 32, 44, 125,
    9, 13, 48, 57, 117, 108, 108, 32, 44, 125, 9, 13, 79, 111, 84, 116, 83, 115, 34, 32, 58, 9, 13,
    32, 43, 45, 110, 9, 13, 48, 57, 48, 57, 32, 44, 125, 9, 13, 48, 57, 117, 108, 108, 32, 44, 125,
    9, 13, 73, 78, 105, 110, 78, 110, 76, 108, 79, 111, 84, 116, 83, 115, 34, 32, 58, 9, 13, 32,
    43, 45, 110, 9, 13, 48, 57, 48, 57, 32, 44, 125, 9, 13, 48, 57, 117, 108, 108, 32, 44, 125, 9,
    13, 69, 101, 77, 109, 34, 32, 58, 9, 13, 32, 34, 110, 9, 13, 34, 92, 32, 44, 125, 9, 13, 117,
    108, 108, 32, 44, 125, 9, 13, 69, 79, 101, 111, 70, 102, 34, 32, 58, 9, 13, 32, 34, 110, 9, 13,
    34, 92, 32, 44, 125, 9, 13, 117, 108, 108, 32, 44, 125, 9, 13, 76, 108, 69, 101, 34, 32, 58, 9,
    13, 32, 34, 110, 9, 13, 77, 84, 109, 116, 65, 97, 75, 107, 69, 101, 82, 114, 34, 32, 44, 125,
    9, 13, 65, 97, 75, 107, 69, 101, 82, 114, 34, 32, 44, 125, 9, 13, 117, 108, 108, 32, 44, 125,
    9, 13, 69, 73, 84, 101, 105, 116, 84, 116, 84, 116, 76, 108, 68, 100, 65, 97, 84, 116, 69, 101,
    34, 32, 58, 9, 13, 32, 43, 45, 110, 9, 13, 48, 57, 48, 57, 32, 44, 125, 9, 13, 48, 57, 117,
    108, 108, 32, 44, 125, 9, 13, 68, 100, 69, 101, 34, 32, 58, 9, 13, 32, 34, 110, 9, 13, 66, 83,
    98, 115, 85, 117, 89, 121, 34, 32, 44, 125, 9, 13, 69, 101, 76, 108, 76, 108, 34, 32, 44, 125,
    9, 13, 117, 108, 108, 32, 44, 125, 9, 13, 65, 97, 84, 116, 69, 101, 34, 32, 58, 9, 13, 32, 43,
    45, 110, 9, 13, 48, 57, 48, 57, 32, 44, 125, 9, 13, 48, 57, 117, 108, 108, 32, 44, 125, 9, 13,
    73, 82, 105, 114, 67, 99, 75, 107, 83, 115, 34, 32, 58, 9, 13, 32, 43, 45, 110, 9, 13, 48, 57,
    48, 57, 32, 44, 125, 9, 13, 48, 57, 117, 108, 108, 32, 44, 125, 9, 13, 65, 97, 68, 100, 69,
    101, 82, 114, 34, 32, 58, 9, 13, 32, 34, 110, 9, 13, 34, 92, 32, 44, 125, 9, 13, 117, 108, 108,
    32, 44, 125, 9, 13, 32, 9, 13, 0]

/-- `_json_single_lengths`. How many keys of one byte a state has. -/
def singleLengths : List Nat :=
  [0, 2, 3, 16, 4, 2, 2, 2, 1, 2, 3, 2, 3, 3, 2, 0, 1, 1, 1, 3, 2, 2, 1, 2, 3, 2, 3, 0, 1, 1, 1, 3,
    2, 2, 2, 2, 2, 2, 1, 2, 3, 2, 3, 0, 1, 1, 1, 3, 4, 2, 2, 2, 1, 2, 3, 2, 3, 0, 1, 1, 1, 3, 2, 2,
    2, 2, 2, 2, 2, 2, 1, 2, 4, 0, 3, 1, 1, 1, 3, 2, 2, 2, 1, 2, 4, 0, 3, 1, 1, 1, 3, 4, 2, 2, 2, 2,
    2, 1, 2, 4, 0, 3, 1, 1, 1, 3, 2, 2, 1, 2, 3, 2, 3, 0, 1, 1, 1, 3, 4, 2, 1, 2, 3, 2, 3, 0, 1, 1,
    1, 3, 2, 2, 1, 2, 3, 4, 2, 2, 2, 2, 1, 3, 2, 2, 2, 2, 1, 3, 1, 1, 1, 3, 6, 2, 2, 2, 2, 2, 2, 2,
    1, 2, 4, 0, 3, 1, 1, 1, 3, 2, 2, 1, 2, 3, 4, 2, 2, 1, 3, 2, 2, 2, 1, 3, 1, 1, 1, 3, 2, 2, 2, 1,
    2, 4, 0, 3, 1, 1, 1, 3, 4, 2, 2, 2, 1, 2, 4, 0, 3, 1, 1, 1, 3, 2, 2, 2, 2, 1, 2, 3, 2, 3, 0, 1,
    1, 1, 3, 1]

/-- `_json_range_lengths`. How many ranges a state has. -/
def rangeLengths : List Nat :=
  [0, 1, 1, 0, 0, 0, 0, 0, 0, 1, 1, 0, 1, 1, 1, 0, 0, 0, 0, 1, 0, 0, 0, 1, 1, 0, 1, 0, 0, 0, 0, 1,
    0, 0, 0, 0, 0, 0, 0, 1, 1, 0, 1, 0, 0, 0, 0, 1, 0, 0, 0, 0, 0, 1, 1, 0, 1, 0, 0, 0, 0, 1, 0, 0,
    0, 0, 0, 0, 0, 0, 0, 1, 2, 1, 2, 0, 0, 0, 1, 0, 0, 0, 0, 1, 2, 1, 2, 0, 0, 0, 1, 0, 0, 0, 0, 0,
    0, 0, 1, 2, 1, 2, 0, 0, 0, 1, 0, 0, 0, 1, 1, 0, 1, 0, 0, 0, 0, 1, 0, 0, 0, 1, 1, 0, 1, 0, 0, 0,
    0, 1, 0, 0, 0, 1, 1, 0, 0, 0, 0, 0, 0, 1, 0, 0, 0, 0, 0, 1, 0, 0, 0, 1, 0, 0, 0, 0, 0, 0, 0, 0,
    0, 1, 2, 1, 2, 0, 0, 0, 1, 0, 0, 0, 1, 1, 0, 0, 0, 0, 1, 0, 0, 0, 0, 1, 0, 0, 0, 1, 0, 0, 0, 0,
    1, 2, 1, 2, 0, 0, 0, 1, 0, 0, 0, 0, 0, 1, 2, 1, 2, 0, 0, 0, 1, 0, 0, 0, 0, 0, 1, 1, 0, 1, 0, 0,
    0, 0, 1, 1]

/-- `_json_index_offsets`. Where the transitions of a state begin. -/
def indexOffsets : List Nat :=
  [0, 0, 4, 9, 26, 31, 34, 37, 40, 42, 46, 51, 54, 59, 64, 68, 69, 71, 73, 75, 80, 83, 86, 88, 92,
    97, 100, 105, 106, 108, 110, 112, 117, 120, 123, 126, 129, 132, 135, 137, 141, 146, 149, 154,
    155, 157, 159, 161, 166, 171, 174, 177, 180, 182, 186, 191, 194, 199, 200, 202, 204, 206, 211,
    214, 217, 220, 223, 226, 229, 232, 235, 237, 241, 248, 250, 256, 258, 260, 262, 267, 270, 273,
    276, 278, 282, 289, 291, 297, 299, 301, 303, 308, 313, 316, 319, 322, 325, 328, 330, 334, 341,
    343, 349, 351, 353, 355, 360, 363, 366, 368, 372, 377, 380, 385, 386, 388, 390, 392, 397, 402,
    405, 407, 411, 416, 419, 424, 425, 427, 429, 431, 436, 439, 442, 444, 448, 453, 458, 461, 464,
    467, 470, 472, 477, 480, 483, 486, 489, 491, 496, 498, 500, 502, 507, 514, 517, 520, 523, 526,
    529, 532, 535, 537, 541, 548, 550, 556, 558, 560, 562, 567, 570, 573, 575, 579, 584, 589, 592,
    595, 597, 602, 605, 608, 611, 613, 618, 620, 622, 624, 629, 632, 635, 638, 640, 644, 651, 653,
    659, 661, 663, 665, 670, 675, 678, 681, 684, 686, 690, 697, 699, 705, 707, 709, 711, 716, 719,
    722, 725, 728, 730, 734, 739, 742, 747, 748, 750, 752, 754, 759]

/-- `_json_trans_targs`. The state after a transition. -/
def transTargs : List Nat :=
  [1, 2, 1, 0, 2, 3, 227, 2, 0, 4, 32, 48, 79, 91, 118, 152, 200, 4, 32, 48, 79, 91, 118, 152, 200,
    0, 5, 20, 5, 20, 0, 6, 6, 0, 7, 7, 0, 8, 8, 0, 9, 0, 9, 10, 9, 0, 10, 11, 16, 10, 0, 12, 15,
    11, 13, 14, 227, 13, 0, 13, 14, 227, 13, 0, 14, 3, 14, 0, 11, 17, 0, 18, 0, 19, 0, 13, 14, 227,
    13, 0, 21, 21, 0, 22, 22, 0, 23, 0, 23, 24, 23, 0, 24, 25, 28, 24, 0, 26, 27, 25, 13, 14, 227,
    13, 0, 25, 29, 0, 30, 0, 31, 0, 13, 14, 227, 13, 0, 33, 33, 0, 34, 34, 0, 35, 35, 0, 36, 36, 0,
    37, 37, 0, 38, 38, 0, 39, 0, 39, 40, 39, 0, 40, 41, 44, 40, 0, 42, 43, 41, 13, 14, 227, 13, 0,
    41, 45, 0, 46, 0, 47, 0, 13, 14, 227, 13, 0, 49, 62, 49, 62, 0, 50, 50, 0, 51, 51, 0, 52, 52,
    0, 53, 0, 53, 54, 53, 0, 54, 55, 58, 54, 0, 56, 57, 55, 13, 14, 227, 13, 0, 55, 59, 0, 60, 0,
    61, 0, 13, 14, 227, 13, 0, 63, 63, 0, 64, 64, 0, 65, 65, 0, 66, 66, 0, 67, 67, 0, 68, 68, 0,
    69, 69, 0, 70, 70, 0, 71, 0, 71, 72, 71, 0, 72, 73, 73, 75, 72, 74, 0, 74, 0, 13, 14, 227, 13,
    74, 0, 76, 0, 77, 0, 78, 0, 13, 14, 227, 13, 0, 80, 80, 0, 81, 81, 0, 82, 82, 0, 83, 0, 83, 84,
    83, 0, 84, 85, 85, 87, 84, 86, 0, 86, 0, 13, 14, 227, 13, 86, 0, 88, 0, 89, 0, 90, 0, 13, 14,
    227, 13, 0, 92, 106, 92, 106, 0, 93, 93, 0, 94, 94, 0, 95, 95, 0, 96, 96, 0, 97, 97, 0, 98, 0,
    98, 99, 98, 0, 99, 100, 100, 102, 99, 101, 0, 101, 0, 13, 14, 227, 13, 101, 0, 103, 0, 104, 0,
    105, 0, 13, 14, 227, 13, 0, 107, 107, 0, 108, 108, 0, 109, 0, 109, 110, 109, 0, 110, 111, 114,
    110, 0, 112, 113, 111, 13, 14, 227, 13, 0, 111, 115, 0, 116, 0, 117, 0, 13, 14, 227, 13, 0,
    119, 130, 119, 130, 0, 120, 120, 0, 121, 0, 121, 122, 121, 0, 122, 123, 126, 122, 0, 124, 125,
    123, 13, 14, 227, 13, 0, 123, 127, 0, 128, 0, 129, 0, 13, 14, 227, 13, 0, 131, 131, 0, 132,
    132, 0, 133, 0, 133, 134, 133, 0, 134, 135, 148, 134, 0, 136, 142, 136, 142, 0, 137, 137, 0,
    138, 138, 0, 139, 139, 0, 140, 140, 0, 141, 0, 13, 14, 227, 13, 0, 143, 143, 0, 144, 144, 0,
    145, 145, 0, 146, 146, 0, 147, 0, 13, 14, 227, 13, 0, 149, 0, 150, 0, 151, 0, 13, 14, 227, 13,
    0, 153, 169, 188, 153, 169, 188, 0, 154, 154, 0, 155, 155, 0, 156, 156, 0, 157, 157, 0, 158,
    158, 0, 159, 159, 0, 160, 160, 0, 161, 0, 161, 162, 161, 0, 162, 163, 163, 165, 162, 164, 0,
    164, 0, 13, 14, 227, 13, 164, 0, 166, 0, 167, 0, 168, 0, 13, 14, 227, 13, 0, 170, 170, 0, 171,
    171, 0, 172, 0, 172, 173, 172, 0, 173, 174, 184, 173, 0, 175, 179, 175, 179, 0, 176, 176, 0,
    177, 177, 0, 178, 0, 13, 14, 227, 13, 0, 180, 180, 0, 181, 181, 0, 182, 182, 0, 183, 0, 13, 14,
    227, 13, 0, 185, 0, 186, 0, 187, 0, 13, 14, 227, 13, 0, 189, 189, 0, 190, 190, 0, 191, 191, 0,
    192, 0, 192, 193, 192, 0, 193, 194, 194, 196, 193, 195, 0, 195, 0, 13, 14, 227, 13, 195, 0,
    197, 0, 198, 0, 199, 0, 13, 14, 227, 13, 0, 201, 213, 201, 213, 0, 202, 202, 0, 203, 203, 0,
    204, 204, 0, 205, 0, 205, 206, 205, 0, 206, 207, 207, 209, 206, 208, 0, 208, 0, 13, 14, 227,
    13, 208, 0, 210, 0, 211, 0, 212, 0, 13, 14, 227, 13, 0, 214, 214, 0, 215, 215, 0, 216, 216, 0,
    217, 217, 0, 218, 0, 218, 219, 218, 0, 219, 220, 223, 219, 0, 221, 222, 220, 13, 14, 227, 13,
    0, 220, 224, 0, 225, 0, 226, 0, 13, 14, 227, 13, 0, 227, 227, 0, 0]

/-- `_json_trans_actions`. Where the actions of a transition are, zero if it has none. -/
def transActions : List Nat :=
  [0, 0, 0, 0, 0, 0, 0, 0, 0, 0, 0, 0, 0, 0, 0, 0, 0, 0, 0, 0, 0, 0, 0, 0, 0, 0, 0, 0, 0, 0, 0, 0,
    0, 0, 0, 0, 0, 0, 0, 0, 0, 0, 0, 0, 0, 0, 0, 89, 0, 0, 0, 0, 0, 5, 25, 25, 25, 25, 0, 0, 0, 0,
    0, 0, 0, 0, 0, 0, 5, 0, 0, 0, 0, 0, 0, 23, 23, 23, 23, 0, 0, 0, 0, 0, 0, 0, 0, 0, 0, 0, 0, 0,
    0, 95, 0, 0, 0, 0, 0, 5, 69, 69, 69, 69, 0, 5, 0, 0, 0, 0, 0, 0, 67, 67, 67, 67, 0, 0, 0, 0, 0,
    0, 0, 0, 0, 0, 0, 0, 0, 0, 0, 0, 0, 0, 0, 0, 0, 0, 0, 0, 0, 0, 80, 0, 0, 0, 0, 0, 5, 13, 13,
    13, 13, 0, 5, 0, 0, 0, 0, 0, 0, 11, 11, 11, 11, 0, 0, 0, 0, 0, 0, 0, 0, 0, 0, 0, 0, 0, 0, 0, 0,
    0, 0, 0, 0, 0, 0, 83, 0, 0, 0, 0, 0, 5, 17, 17, 17, 17, 0, 5, 0, 0, 0, 0, 0, 0, 15, 15, 15, 15,
    0, 0, 0, 0, 0, 0, 0, 0, 0, 0, 0, 0, 0, 0, 0, 0, 0, 0, 0, 0, 0, 0, 0, 0, 0, 0, 0, 0, 0, 0, 0, 0,
    1, 71, 0, 0, 74, 0, 3, 0, 33, 33, 33, 33, 3, 0, 0, 0, 0, 0, 0, 0, 31, 31, 31, 31, 0, 0, 0, 0,
    0, 0, 0, 0, 0, 0, 0, 0, 0, 0, 0, 0, 0, 1, 71, 0, 0, 74, 0, 3, 0, 55, 55, 55, 55, 3, 0, 0, 0, 0,
    0, 0, 0, 53, 53, 53, 53, 0, 0, 0, 0, 0, 0, 0, 0, 0, 0, 0, 0, 0, 0, 0, 0, 0, 0, 0, 0, 0, 0, 0,
    0, 0, 0, 0, 0, 1, 71, 0, 0, 74, 0, 3, 0, 59, 59, 59, 59, 3, 0, 0, 0, 0, 0, 0, 0, 57, 57, 57,
    57, 0, 0, 0, 0, 0, 0, 0, 0, 0, 0, 0, 0, 0, 0, 77, 0, 0, 0, 0, 0, 5, 9, 9, 9, 9, 0, 5, 0, 0, 0,
    0, 0, 0, 7, 7, 7, 7, 0, 0, 0, 0, 0, 0, 0, 0, 0, 0, 0, 0, 0, 0, 0, 0, 92, 0, 0, 0, 0, 0, 5, 37,
    37, 37, 37, 0, 5, 0, 0, 0, 0, 0, 0, 35, 35, 35, 35, 0, 0, 0, 0, 0, 0, 0, 0, 0, 0, 0, 0, 0, 0,
    0, 0, 0, 0, 0, 0, 0, 0, 0, 0, 0, 0, 0, 0, 0, 0, 0, 0, 0, 0, 0, 0, 0, 63, 63, 63, 63, 0, 0, 0,
    0, 0, 0, 0, 0, 0, 0, 0, 0, 0, 0, 0, 65, 65, 65, 65, 0, 0, 0, 0, 0, 0, 0, 61, 61, 61, 61, 0, 0,
    0, 0, 0, 0, 0, 0, 0, 0, 0, 0, 0, 0, 0, 0, 0, 0, 0, 0, 0, 0, 0, 0, 0, 0, 0, 0, 0, 0, 0, 0, 0, 0,
    0, 0, 1, 71, 0, 0, 74, 0, 3, 0, 29, 29, 29, 29, 3, 0, 0, 0, 0, 0, 0, 0, 27, 27, 27, 27, 0, 0,
    0, 0, 0, 0, 0, 0, 0, 0, 0, 0, 0, 0, 0, 0, 0, 0, 0, 0, 0, 0, 0, 0, 0, 0, 0, 0, 0, 0, 0, 49, 49,
    49, 49, 0, 0, 0, 0, 0, 0, 0, 0, 0, 0, 0, 0, 51, 51, 51, 51, 0, 0, 0, 0, 0, 0, 0, 47, 47, 47,
    47, 0, 0, 0, 0, 0, 0, 0, 0, 0, 0, 0, 0, 0, 0, 0, 0, 0, 1, 71, 0, 0, 74, 0, 3, 0, 41, 41, 41,
    41, 3, 0, 0, 0, 0, 0, 0, 0, 39, 39, 39, 39, 0, 0, 0, 0, 0, 0, 0, 0, 0, 0, 0, 0, 0, 0, 0, 0, 0,
    0, 0, 0, 0, 0, 1, 71, 0, 0, 74, 0, 3, 0, 45, 45, 45, 45, 3, 0, 0, 0, 0, 0, 0, 0, 43, 43, 43,
    43, 0, 0, 0, 0, 0, 0, 0, 0, 0, 0, 0, 0, 0, 0, 0, 0, 0, 0, 0, 0, 86, 0, 0, 0, 0, 0, 5, 21, 21,
    21, 21, 0, 5, 0, 0, 0, 0, 0, 0, 19, 19, 19, 19, 0, 0, 0, 0, 0]

/-- `json_start`. -/
def start : Nat := 1

/-- `json_first_final`. -/
def firstFinal : Nat := 227

/-- `json_error`. -/
def error : Nat := 0

/-! ### Lookup -/

/-- The value of a byte that is read as a `char`. -/
def charVal (signed : Bool) (b : Byte) : Int :=
  if signed ∧ 128 ≤ b then (b : Nat) - 256 else (b : Nat)

/-- The `n` entries of a table from `off`, if it has them. -/
def slice (t : List Nat) (off n : Nat) : Option (List Nat) :=
  if off + n ≤ t.length then some ((t.drop off).take n) else none

/-- The ends of the ranges in a slice. -/
def pairs : List Nat → List (Nat × Nat)
  | lo :: hi :: rest => (lo, hi) :: pairs rest
  | _ => []

/-- What `parse` reads of the tables in a state: `_trans`, and from `_keys` on `_klen` keys of
one byte and then `_klen` ranges. -/
structure Row where
  index : Nat
  keys : List Nat
  ranges : List (Nat × Nat)

/-- The row of a state. -/
def row (cs : Nat) : Option Row := do
  let off ← keyOffsets[cs]?
  let index ← indexOffsets[cs]?
  let klen ← singleLengths[cs]?
  let rlen ← rangeLengths[cs]?
  let keys ← slice transKeys off klen
  let ranges ← slice transKeys (off + klen) (2 * rlen)
  return { index, keys, ranges := pairs ranges }

/-- The comparisons of the search among keys of one byte. -/
def cmpKey (c : Int) (mid : Nat) : Ordering :=
  if c < mid then .lt else if mid < c then .gt else .eq

/-- The comparisons of the search among ranges. -/
def cmpRange (c : Int) (mid : Nat × Nat) : Ordering :=
  if c < mid.1 then .lt else if mid.2 < c then .gt else .eq

/-- `_trans` at `_match`, from what the search among the keys finds, and the one among the
ranges if that finds none. -/
def Row.trans (r : Row) : Option Nat → Option Nat → Nat
  | some i, _ => r.index + i
  | none, some i => r.index + r.keys.length + i
  | none, none => r.index + r.keys.length + r.ranges.length

/-- The index of the transition on a `char`. -/
def Row.find (r : Row) (c : Int) : Nat :=
  r.trans (searchList (cmpKey c) r.keys) (searchList (cmpRange c) r.ranges)

/-- The actions of a transition whose entry in `_json_trans_actions` is `off`. -/
def actsAt (off : Nat) : Option (List Nat) := do
  if off = 0 then return []
  else
    let nacts ← actions[off]?
    slice actions (off + 1) nacts

/-- The transition at an index: its actions, and the state after it. -/
def entry (trans : Nat) : Option (List Nat × Nat) := do
  let cs ← transTargs[trans]?
  let off ← transActions[trans]?
  let acts ← actsAt off
  return (acts, cs)

end Json

/-! ### The parser -/

/-- `RestRequest` with the number of its state, and `msg` of `parse`. -/
structure JsonRequest extends ReqFields where
  cs : Nat
  scratch : Scratch
  msg : String

namespace JsonRequest

/-- `num_.sign`. -/
def sign (r : JsonRequest) : Int :=
  match r.scratch with
  | .num sign _ => sign
  | _ => 0

/-- `num`, of a product of 64 bits. -/
def num (r : JsonRequest) : Int :=
  match r.scratch with
  | .num sign digits => (sign * digits).bmod (2 ^ 64)
  | _ => 0

/-- Code that changes the request and goes on. -/
def goOn (r : JsonRequest) : JsonRequest × Bool := (r, false)

/-- `beginNum`. -/
def beginNum (r : JsonRequest) : JsonRequest × Bool := goOn { r with scratch := .num 1 0 }

/-- `negate`. -/
def negate (r : JsonRequest) : JsonRequest × Bool :=
  match r.scratch with
  | .num _ digits => goOn { r with scratch := .num (-1) digits }
  | _ => goOn r

/-- `addDigit`. -/
def addDigit (b : Byte) (r : JsonRequest) : JsonRequest × Bool :=
  match r.scratch with
  | .num sign digits => goOn { r with scratch := .num sign ((digits * 10 + digit b) % 2 ^ 64) }
  | _ => goOn r

/-- `beginStr`. -/
def beginStr (r : JsonRequest) : JsonRequest × Bool :=
  match r.scratch with
  | .str f => goOn { r with toReqFields := r.setStr f (.assign f.max []) }
  | _ => goOn r

/-- `addChar`, which leaves the loop when the string is full. -/
def addChar (b : Byte) (r : JsonRequest) : JsonRequest × Bool :=
  match r.scratch with
  | .str f =>
    if h : (r.strs f).buf.length < f.max then
      goOn { r with toReqFields := r.setStr f ((r.strs f).push b h) }
    else ({ r with cs := Json.error, msg := "max length exceeded" }, true)
  | _ => goOn r

/-- `null<Field>`. -/
def null (f : ReqField) (r : JsonRequest) : JsonRequest × Bool :=
  goOn { r with toReqFields := r.toReqFields.null f }

/-- `begin<Field>`. -/
def beginField (f : StrField) (r : JsonRequest) : JsonRequest × Bool :=
  goOn { r with scratch := .str f }

/-- `end<Field>` of a string field. -/
def endStr (f : StrField) (r : JsonRequest) : JsonRequest × Bool :=
  goOn { r with toReqFields := r.toReqFields.endStr f }

/-- `end<Field>` of a number. -/
def endNum (f : NumField) (r : JsonRequest) : JsonRequest × Bool :=
  goOn { r with toReqFields := r.toReqFields.endNum f r.num }

/-- `endState`, which does not leave the loop at once. -/
def endState (r : JsonRequest) : JsonRequest × Bool :=
  if 0 ≤ r.sign then r.endNum .state
  else goOn { r with cs := Json.error, msg := "negative state field" }

/-- `buySide`, `sellSide`, `makerRole` and `takerRole`. -/
def endWord (x : Word) (r : JsonRequest) : JsonRequest × Bool :=
  goOn { r with toReqFields := r.toReqFields.endWord x }

/-- The cases of the `switch`; the flag says that the loop is left at once. -/
def switch (b : Byte) (r : JsonRequest) : Nat → JsonRequest × Bool
  | 0 => r.beginNum
  | 1 => r.negate
  | 2 => r.addDigit b
  | 3 => r.beginStr
  | 4 => r.addChar b
  | 5 => r.null (.str .mnem)
  | 6 => r.beginField .mnem
  | 7 => r.endStr .mnem
  | 8 => r.null (.str .display)
  | 9 => r.beginField .display
  | 10 => r.endStr .display
  | 11 => r.null (.str .email)
  | 12 => r.beginField .email
  | 13 => r.endStr .email
  | 14 => r.null (.str .trader)
  | 15 => r.beginField .trader
  | 16 => r.endStr .trader
  | 17 => r.null (.str .contr)
  | 18 => r.beginField .contr
  | 19 => r.endStr .contr
  | 20 => r.null (.num .settlDate)
  | 21 => r.endNum .settlDate
  | 22 => r.null (.num .expiryDate)
  | 23 => r.endNum .expiryDate
  | 24 => r.null (.str .ref)
  | 25 => r.beginField .ref
  | 26 => r.endStr .ref
  | 27 => r.null (.num .state)
  | 28 => r.endState
  | 29 => r.null (.num .ticks)
  | 30 => r.endNum .ticks
  | 31 => r.null .side
  | 32 => r.endWord .buy
  | 33 => r.endWord .sell
  | 34 => r.null (.num .lots)
  | 35 => r.endNum .lots
  | 36 => r.null (.num .minLots)
  | 37 => r.endNum .minLots
  | 38 => r.null .role
  | 39 => r.endWord .maker
  | 40 => r.endWord .taker
  | 41 => r.null (.str .cpty)
  | 42 => r.beginField .cpty
  | 43 => r.endStr .cpty
  | _ => goOn r

/-- The loop over the actions of a transition. -/
def runActs (b : Byte) (r : JsonRequest) : List Nat → JsonRequest × Bool
  | [] => goOn r
  | act :: acts =>
    match r.switch b act with
    | (r', true) => (r', true)
    | (r', false) => r'.runActs b acts

/-- One byte: from `_resume` to `_again`. -/
def step (signed : Bool) (r : JsonRequest) (b : Byte) : Option (JsonRequest × Bool) := do
  let row ← Json.row r.cs
  let (acts, cs) ← Json.entry (row.find (Json.charVal signed b))
  return { r with cs }.runActs b acts

/-- The loop, from `_resume` on while there are bytes. -/
def resume (signed : Bool) (r : JsonRequest) : List Byte → Option JsonRequest
  | [] => some r
  | b :: buf => do
    let (r, out) ← r.step signed b
    if out ∨ r.cs = Json.error then some r else r.resume signed buf

/-- The loop as it is entered. -/
def exec (signed : Bool) (r : JsonRequest) (buf : List Byte) : Option JsonRequest :=
  if buf = [] then some r
  else if r.cs = Json.error then some r
  else r.resume signed buf

/-- `parse`, as it is generated: the loop over the bytes with the tables, and the verdict by the
state it ends in. -/
def parse (signed : Bool) (r : JsonRequest) (buf : List Byte) :
    Option (Except String Bool × JsonRequest) := do
  let r ← { r with msg := "parse error" }.exec signed buf
  if r.cs = Json.error then return (.error r.msg, r)
  else if r.cs < Json.firstFinal then return (.ok false, r)
  else return (.ok true, r)

/-- `reset`: the state is the start, and the fields are cleared if that is asked for. -/
def reset (clear : Bool) (r : JsonRequest) : JsonRequest :=
  let r := { r with cs := Json.start }
  if clear then { r with toReqFields := ReqFields.clear } else r

/-- The constructor: no field, and the state is the start. -/
def new : JsonRequest :=
  { ReqFields.clear with cs := Json.start, scratch := .none, msg := "" }

end JsonRequest

end Swirly
